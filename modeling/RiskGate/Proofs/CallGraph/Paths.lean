import RiskGate.Proofs.CallGraph.Calls

/-! # Paths and circuits

Chains of calls in a call graph: simple paths, the first path to a node in the order of names, and
circuits, which lead back to where they begin.
-/

namespace RiskGate.CallGraph

/-! ## Simple paths -/

/-- A chain of calls between distinct nodes, outermost first. -/
structure IsSimplePath (g : CallGraph) (path : List String) : Prop where
  distinct : path.Nodup
  linked : path.IsChain g.Calls
  nodes : ∀ v ∈ path, g.contains v = true

/-- A node may be added at the end of a simple path if the last node calls it. -/
theorem isSimplePath_concat {g : CallGraph} {path : List String} {v : String}
    (hp : g.IsSimplePath path) (hv : v ∉ path) (hnode : g.contains v = true)
    (hcall : ∀ u, path.getLast? = some u → g.Calls u v) : g.IsSimplePath (path ++ [v]) := by
  refine ⟨?_, ?_, ?_⟩
  · rw [← List.concat_eq_append]
    exact hp.distinct.concat hv
  · refine List.IsChain.append hp.linked (List.isChain_singleton v) ?_
    intro u hu w hw
    cases hw
    exact hcall u hu
  · intro x hx
    rcases List.mem_append.mp hx with hx | hx
    · exact hp.nodes x hx
    · rw [List.mem_singleton.mp hx]
      exact hnode

/-- The calls along a simple path lead from a node to another. -/
theorem IsSimplePath.isChain_ne {g : CallGraph} {path : List String} (hp : g.IsSimplePath path) :
    path.IsChain fun u w => g.Calls u w ∧ u ≠ w := by
  refine List.isChain_iff_getElem.mpr fun i hi => ⟨List.isChain_iff_getElem.mp hp.linked i hi, ?_⟩
  intro heq
  have hindex := (hp.distinct.getElem_inj_iff).mp heq
  omega

/-- A simple path has at most as many nodes as the graph. -/
theorem length_le_of_isSimplePath {g : CallGraph} {path : List String} (hp : g.IsSimplePath path) :
    path.length ≤ g.nodeCount :=
  length_le_nodeCount hp.distinct hp.nodes

/-- The first path to a node: of all simple paths that end in it, the one that comes first in the
lexicographic order of the names along the path. -/
structure IsFirstPath (g : CallGraph) (path : List String) (v : String) : Prop where
  simple : g.IsSimplePath path
  ends : path.getLast? = some v
  first : ∀ other, g.IsSimplePath other → other.getLast? = some v → ¬ other < path

/-- There is no more than one first path to a node. -/
theorem IsFirstPath.unique {g : CallGraph} {p q : List String} {v : String}
    (hp : g.IsFirstPath p v) (hq : g.IsFirstPath q v) : p = q := by
  rcases lt_trichotomy p q with h | h | h
  · exact absurd h (hq.first p hp.simple hp.ends)
  · exact h
  · exact absurd h (hp.first q hq.simple hq.ends)

/-- A list comes before another if it is a part of its beginning, or has the smaller name where they
part. -/
theorem lt_cases {p q : List String} (h : p < q) :
    (∃ b rest, q = p ++ b :: rest) ∨
      ∃ shared a b restp restq,
        p = shared ++ a :: restp ∧ q = shared ++ b :: restq ∧ a < b := by
  induction h with
  | @nil b rest => exact Or.inl ⟨b, rest, rfl⟩
  | @rel a restp b restq hab => exact Or.inr ⟨[], a, b, restp, restq, rfl, rfl, hab⟩
  | @cons x p q _ ih =>
      rcases ih with ⟨b, rest, rfl⟩ | ⟨shared, a, b, restp, restq, rfl, rfl, hab⟩
      · exact Or.inl ⟨b, rest, rfl⟩
      · exact Or.inr ⟨x :: shared, a, b, restp, restq, rfl, rfl, hab⟩

/-! ## Circuits -/

/-- The steps around a list of nodes: from each to the next, and from the last to the first. -/
def stepsAround : List String → List (String × String)
  | [] => []
  | v :: rest => (v :: rest).zip (rest ++ [v])

/-- A circuit of a relation: every step around the list belongs to the relation. Nodes may occur
more than once, and a single node is a circuit if it is related to itself. -/
def IsCircuit (r : String → String → Prop) (circuit : List String) : Prop :=
  circuit ≠ [] ∧ ∀ e ∈ stepsAround circuit, r e.1 e.2

/-- A circuit of calls that goes through no node twice. -/
structure IsSimpleCircuit (g : CallGraph) (circuit : List String) : Prop where
  closed : IsCircuit g.Calls circuit
  distinct : circuit.Nodup
  nodes : ∀ v ∈ circuit, g.contains v = true

/-- The step that closes a circuit, from its last node to its first. -/
def closingStep (circuit : List String) : Option (String × String) :=
  (stepsAround circuit).getLast?

theorem isCircuit_cons_iff {r : String → String → Prop} {v : String} {rest : List String} :
    IsCircuit r (v :: rest) ↔ (v :: (rest ++ [v])).IsChain r := by
  have hlen : (v :: rest).length = (rest ++ [v]).length := by simp
  rw [← List.cons_append, List.isChain_cons_append_singleton_iff_forall₂, List.forall₂_iff_zip]
  constructor
  · rintro ⟨-, hsteps⟩
    exact ⟨hlen, fun {a b} hab => hsteps (a, b) hab⟩
  · rintro ⟨-, hsteps⟩
    exact ⟨List.cons_ne_nil v rest, fun e he => hsteps he⟩

/-- A chain whose last node is related to its first is a circuit. -/
theorem isCircuit_of_isChain {r : String → String → Prop} {v u : String} {rest : List String}
    (hchain : (v :: rest).IsChain r) (hlast : (v :: rest).getLast? = some u) (hclose : r u v) :
    IsCircuit r (v :: rest) := by
  rw [isCircuit_cons_iff, ← List.cons_append]
  refine List.IsChain.append hchain (List.isChain_singleton v) ?_
  intro a ha b hb
  rw [hlast] at ha
  cases ha
  cases hb
  exact hclose

theorem closingStep_eq {v u : String} {rest : List String}
    (hlast : (v :: rest).getLast? = some u) : closingStep (v :: rest) = some (u, v) := by
  -- the last step is split off on both sides of the zip
  have hzip : (v :: rest).zip (rest ++ [v]) =
      ((v :: rest).dropLast.zip rest) ++ [(u, v)] := by
    have hsplit : v :: rest = (v :: rest).dropLast ++ [u] :=
      (List.dropLast_append_getLast? u hlast).symm
    have hlen : (v :: rest).dropLast.length = rest.length := by simp
    calc (v :: rest).zip (rest ++ [v])
        = ((v :: rest).dropLast ++ [u]).zip (rest ++ [v]) := by rw [← hsplit]
      _ = (v :: rest).dropLast.zip rest ++ [u].zip [v] := List.zip_append hlen
  rw [closingStep, stepsAround, hzip, List.getLast?_append]
  rfl

/-- A circuit of a relation goes through both ends of each of its steps. -/
theorem mem_of_mem_stepsAround {circuit : List String} {e : String × String}
    (he : e ∈ stepsAround circuit) : e.1 ∈ circuit ∧ e.2 ∈ circuit := by
  cases circuit with
  | nil => cases he
  | cons v rest =>
      have hmem := List.of_mem_zip (a := e.1) (b := e.2) he
      refine ⟨hmem.1, ?_⟩
      rcases List.mem_append.mp hmem.2 with h | h
      · exact List.mem_cons_of_mem v h
      · rw [List.mem_singleton.mp h]
        exact List.mem_cons_self

/-- A relation along which a rank grows has no circuits. -/
theorem not_isCircuit_of_rank {r : String → String → Prop} (rank : String → Nat)
    (hr : ∀ u w, r u w → rank u < rank w) (circuit : List String) : ¬ IsCircuit r circuit := by
  cases circuit with
  | nil => exact fun h => h.1 rfl
  | cons v rest =>
      intro h
      have hchain := (isCircuit_cons_iff.mp h).imp hr
      have hpair := List.isChain_map (R := (· < ·)) rank |>.mpr hchain
      have hsorted := List.isChain_iff_pairwise.mp hpair
      rw [List.map_cons, List.pairwise_cons] at hsorted
      -- once round, the first node would rank below itself
      have hlt : rank v < rank v := hsorted.1 _ (by simp)
      exact Nat.lt_irrefl _ hlt

/-- Along a chain on which a rank grows no node occurs twice. -/
theorem nodup_of_rank {r : String → String → Prop} {rank : String → Nat}
    (hr : ∀ u w, r u w → rank u < rank w) {path : List String} (hpath : path.IsChain r) :
    path.Nodup := by
  have hpair := List.isChain_map (R := (· < ·)) rank |>.mpr (hpath.imp hr)
  have hsorted := List.isChain_iff_pairwise.mp hpair
  exact List.Nodup.of_map rank (hsorted.imp fun h => Nat.ne_of_lt h)

end RiskGate.CallGraph

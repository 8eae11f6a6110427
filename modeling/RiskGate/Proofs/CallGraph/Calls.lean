import Mathlib
import RiskGate.CallGraph.Construction

/-! # The calls of a graph

Who calls whom, as a relation and as one list of edges, and that a constructed graph has both ends
of every call among its nodes.
-/

namespace RiskGate.CallGraph

/-- One node calls another, as a proposition. -/
abbrev Calls (g : CallGraph) (u w : String) : Prop := g.calls u w = true

/-! ## Sets of names -/

/-- The names in a list, as a set. -/
def namesOf (list : List String) : Names := Std.ExtTreeSet.ofList list

@[simp] theorem mem_namesOf {list : List String} {v : String} : v ∈ namesOf list ↔ v ∈ list := by
  simp [namesOf]

@[simp] theorem contains_namesOf {list : List String} {v : String} :
    (namesOf list).contains v = decide (v ∈ list) := by
  rw [Bool.eq_iff_iff, decide_eq_true_iff, Std.ExtTreeSet.contains_iff_mem, mem_namesOf]

theorem namesOf_congr {list list' : List String} (h : ∀ v, v ∈ list ↔ v ∈ list') :
    namesOf list = namesOf list' := by
  ext v
  simp only [mem_namesOf, h]

theorem insert_namesOf (list : List String) (v : String) :
    (namesOf list).insert v = namesOf (v :: list) := by
  ext w
  simp only [Std.ExtTreeSet.mem_insert, mem_namesOf, List.mem_cons, Std.compare_eq_iff_eq,
    eq_comm (a := v)]

theorem erase_namesOf {list : List String} {v : String} (h : v ∉ list) :
    (namesOf (v :: list)).erase v = namesOf list := by
  ext w
  simp only [Std.ExtTreeSet.mem_erase, mem_namesOf, List.mem_cons, ne_eq, Std.compare_eq_iff_eq]
  constructor
  · rintro ⟨hne, rfl | hw⟩
    · exact absurd rfl hne
    · exact hw
  · intro hw
    exact ⟨fun heq => h (heq ▸ hw), Or.inr hw⟩

/-! ## Successors -/

@[simp] theorem mem_successors {g : CallGraph} {u w : String} :
    w ∈ g.successors u ↔ g.Calls u w := by
  unfold successors Calls calls
  cases g.edges[u]? with
  | none => simp
  | some callees => simp

/-- Names in a set are listed in ascending order. -/
theorem sorted_toList (names : Names) : names.toList.Pairwise (· < ·) := by
  apply names.ordered_toList.imp
  intro a b h
  exact compareOfLessAndEq_eq_lt.mp h

theorem sorted_successors (g : CallGraph) (u : String) :
    (g.successors u).Pairwise (· < ·) := by
  unfold successors
  cases g.edges[u]? with
  | none => exact List.Pairwise.nil
  | some callees => exact sorted_toList callees

theorem sorted_nodes (g : CallGraph) : g.nodes.keys.Pairwise (· < ·) := by
  apply g.nodes.ordered_keys.imp
  intro a b h
  exact compareOfLessAndEq_eq_lt.mp h

theorem nodup_of_sorted {names : List String} (h : names.Pairwise (· < ·)) : names.Nodup := by
  apply h.imp
  intro a b hlt heq
  rw [heq] at hlt
  exact String.lt_irrefl b hlt

theorem nodup_successors (g : CallGraph) (u : String) : (g.successors u).Nodup :=
  nodup_of_sorted (g.sorted_successors u)

@[simp] theorem mem_nodes {g : CallGraph} {v : String} :
    v ∈ g.nodes.keys ↔ g.contains v = true := by
  rw [Std.ExtTreeMap.mem_keys, contains, Std.ExtTreeMap.contains_iff_mem]

/-- Distinct nodes are at most as many as there are. -/
theorem length_le_nodeCount {g : CallGraph} {names : List String} (hd : names.Nodup)
    (hn : ∀ v ∈ names, g.contains v) : names.length ≤ g.nodeCount := by
  have hsub : names ⊆ g.nodes.keys := fun v hv => mem_nodes.mpr (hn v hv)
  have hle := (hd.subperm hsub).length_le
  rwa [Std.ExtTreeMap.length_keys] at hle

/-! ## The list of all calls -/

/-- All calls, each once, as caller and callee. -/
def callList (g : CallGraph) : List (String × String) :=
  g.edges.toList.flatMap fun (caller, callees) => callees.toList.map fun callee => (caller, callee)

theorem mem_callList {g : CallGraph} {u w : String} :
    (u, w) ∈ g.callList ↔ g.Calls u w := by
  unfold callList Calls calls
  simp only [List.mem_flatMap, List.mem_map, Prod.mk.injEq, Prod.exists]
  constructor
  · rintro ⟨caller, callees, hmem, callee, hcallee, rfl, rfl⟩
    rw [Std.ExtTreeMap.mem_toList_iff_getElem?_eq_some] at hmem
    rw [hmem]
    simpa using hcallee
  · intro h
    cases hu : g.edges[u]? with
    | none => simp [hu] at h
    | some callees =>
        rw [hu] at h
        refine ⟨u, callees, ?_, w, by simpa using h, rfl, rfl⟩
        exact Std.ExtTreeMap.mem_toList_iff_getElem?_eq_some.mpr hu

theorem length_callList (g : CallGraph) : g.callList.length = g.edgeCount := by
  unfold callList edgeCount
  rw [Std.ExtTreeMap.foldl_eq_foldl_toList, List.length_flatMap, List.sum_eq_foldl, List.foldl_map]
  simp

/-- Distinct calls of the graph are at most as many as there are edges. -/
theorem length_le_edgeCount {g : CallGraph} {calls : List (String × String)} (hd : calls.Nodup)
    (hc : ∀ e ∈ calls, g.Calls e.1 e.2) : calls.length ≤ g.edgeCount := by
  have hsub : calls ⊆ g.callList := fun e he => mem_callList.mpr (hc e he)
  rw [← length_callList]
  exact (hd.subperm hsub).length_le

/-- The calls of distinct nodes, counted together, are at most all calls. -/
theorem sum_successors_le_edgeCount {g : CallGraph} {names : List String} (hd : names.Nodup) :
    (names.map fun v => (g.successors v).length).sum ≤ g.edgeCount := by
  let calls := names.flatMap fun v => (g.successors v).map fun w => (v, w)
  have hlen : calls.length = (names.map fun v => (g.successors v).length).sum := by
    simp [calls, List.length_flatMap]
  have hcalls : ∀ e ∈ calls, g.Calls e.1 e.2 := by
    intro e he
    obtain ⟨v, -, hv⟩ := List.mem_flatMap.mp he
    obtain ⟨w, hw, rfl⟩ := List.mem_map.mp hv
    exact mem_successors.mp hw
  have hnodup : calls.Nodup := by
    -- calls of one node differ in the callee, calls of two nodes in the caller
    refine List.nodup_flatMap.mpr ⟨?_, hd.imp ?_⟩
    · intro v _
      exact (g.nodup_successors v).map fun a b hab => (Prod.mk.inj hab).2
    · intro a b hab e ha hb
      obtain ⟨x, -, rfl⟩ := List.mem_map.mp ha
      obtain ⟨y, -, hy⟩ := List.mem_map.mp hb
      exact hab (Prod.mk.inj hy).1.symm
  rw [← hlen]
  exact length_le_edgeCount hnodup hcalls

/-! ## Constructed graphs -/

/-- Both ends of every call are nodes. -/
structure WellFormed (g : CallGraph) : Prop where
  caller : ∀ {u w}, g.Calls u w → g.contains u = true
  callee : ∀ {u w}, g.Calls u w → g.contains w = true

theorem contains_declare {g : CallGraph} {id v : String} {weight : Count} :
    (g.declare id weight).contains v = true ↔ id = v ∨ g.contains v = true := by
  simp [contains, declare]

theorem contains_addCall {g : CallGraph} {caller callee v : String} :
    (g.addCall caller callee).contains v = true ↔ callee = v ∨ g.contains v = true := by
  simp [contains, addCall]

theorem calls_addCall {g : CallGraph} {caller callee u w : String} :
    (g.addCall caller callee).Calls u w ↔ (caller = u ∧ callee = w) ∨ g.Calls u w := by
  unfold Calls calls addCall
  simp only [Std.ExtTreeMap.getElem?_insert, Std.compare_eq_iff_eq]
  by_cases hu : caller = u
  · subst hu
    cases g.edges[caller]? with
    | none => simp
    | some callees => simp
  · simp [hu]

theorem wellFormed_addCall {g : CallGraph} {caller callee : String} (hg : g.WellFormed)
    (hcaller : g.contains caller = true) : (g.addCall caller callee).WellFormed := by
  constructor
  · intro u w h
    rw [contains_addCall]
    rcases calls_addCall.mp h with ⟨rfl, -⟩ | h
    · exact Or.inr hcaller
    · exact Or.inr (hg.caller h)
  · intro u w h
    rw [contains_addCall]
    rcases calls_addCall.mp h with ⟨-, rfl⟩ | h
    · exact Or.inl rfl
    · exact Or.inr (hg.callee h)

/-- Declarations make nodes and no edges. -/
theorem ofFunctions_spec (functions : List (String × ContractFunction)) :
    (ofFunctions functions).edges = ∅ ∧
      ∀ entry ∈ functions, (ofFunctions functions).contains entry.1 = true := by
  unfold ofFunctions
  -- from the right, as declarations are folded from the left
  induction functions using List.reverseRecOn with
  | nil => simp
  | append_singleton functions entry ih =>
      rw [List.foldl_append, List.foldl_cons, List.foldl_nil]
      refine ⟨ih.1, ?_⟩
      intro other hother
      rw [contains_declare]
      rcases List.mem_append.mp hother with hother | hother
      · exact Or.inr (ih.2 other hother)
      · exact Or.inl (by rw [List.mem_singleton.mp hother])

/-- Linking keeps a graph well formed whose nodes include all callers. -/
theorem wellFormed_link {calls : List (String × FunctionName)} {g g' : CallGraph}
    (hg : g.WellFormed) (hcallers : ∀ call ∈ calls, g.contains call.1 = true)
    (h : calls.foldlM link g = .ok g') : g'.WellFormed := by
  induction calls generalizing g with
  | nil =>
      cases h
      exact hg
  | cons call calls ih =>
      rw [List.foldlM_cons] at h
      unfold link at h
      split at h
      · cases h
      · refine ih (wellFormed_addCall hg (hcallers call List.mem_cons_self)) ?_ h
        intro other hother
        exact contains_addCall.mpr (Or.inr (hcallers other (List.mem_cons_of_mem _ hother)))

theorem wellFormed_of_ofContracts {contracts : List Contract} {g : CallGraph}
    (h : ofContracts contracts = .ok g) : g.WellFormed := by
  obtain ⟨hedges, hnodes⟩ := ofFunctions_spec (declaredFunctions contracts)
  have hempty : ∀ {u w}, ¬ (ofFunctions (declaredFunctions contracts)).Calls u w := by
    intro u w
    simp [Calls, calls, hedges]
  -- linking starts from no calls at all, and every caller is declared
  refine wellFormed_link ⟨fun hc => absurd hc hempty, fun hc => absurd hc hempty⟩ ?_ h
  intro call hcall
  obtain ⟨entry, hentry, hmem⟩ := List.mem_flatMap.mp hcall
  obtain ⟨target, -, rfl⟩ := List.mem_map.mp hmem
  exact hnodes entry hentry

end RiskGate.CallGraph

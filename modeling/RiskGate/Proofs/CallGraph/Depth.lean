import RiskGate.Proofs.CallGraph.Cycles
import RiskGate.Proofs.CallGraph.DepthSearch

/-! # Depths and the longest chains of calls

* `depths_longest_forward`: the depth of a node is the length of the longest chain of calls from it
  that takes no closing step of a recorded cycle. The searches for depths and for cycles so agree on
  what a call back is, although neither asks the other.
-/

namespace RiskGate.CallGraph

/-- The numbers of steps of the chains of a relation that begin at a node. -/
def chainLengths (r : String → String → Prop) (v : String) : Set Nat :=
  {n | ∃ rest, (v :: rest).IsChain r ∧ rest.length = n}

theorem zero_mem_chainLengths (r : String → String → Prop) (v : String) : 0 ∈ chainLengths r v :=
  ⟨[], List.isChain_singleton v, rfl⟩

/-! ## Chains of the calls that are left -/

namespace Traversal

variable {g : CallGraph} {order : List String} {found : List BackCall}

/-- A depth bounds every chain. The induction is on the chain. -/
theorem length_le_depthIn (hg : g.WellFormed) (h : g.Traversal order found) {v : String}
    {rest : List String} {depth : Nat} (hchain : (v :: rest).IsChain g.Forward)
    (hdepth : g.depthIn order v = some depth) : rest.length ≤ depth := by
  induction rest generalizing v depth with
  | nil => exact Nat.zero_le depth
  | cons w rest ih =>
      obtain ⟨hvw, hrest⟩ := List.isChain_cons_cons.mp hchain
      obtain ⟨hcall, hbefore⟩ := (h.forward_iff hg).mp hvw
      obtain ⟨inner, hinner, hlt⟩ := (depthIn_spec h.nodup hdepth).1 w hcall hbefore
      have hle := ih hrest hinner
      rw [List.length_cons]
      omega

/-- Some chain is as long as the depth. The induction is on the depth. -/
theorem depthIn_mem_chainLengths (hg : g.WellFormed) (h : g.Traversal order found) {v : String}
    {depth : Nat} (hdepth : g.depthIn order v = some depth) :
    depth ∈ chainLengths g.Forward v := by
  induction depth generalizing v with
  | zero => exact zero_mem_chainLengths g.Forward v
  | succ depth ih =>
      rcases (depthIn_spec h.nodup hdepth).2 with hzero | ⟨w, inner, hcall, hbefore, hinner, hsucc⟩
      · exact absurd hzero (Nat.succ_ne_zero depth)
      · obtain rfl : depth = inner := Nat.succ.inj hsucc
        obtain ⟨rest, hrest, hlength⟩ := ih hinner
        have hvw := (h.forward_iff hg).mpr ⟨hcall, hbefore⟩
        exact ⟨w :: rest, List.isChain_cons_cons.mpr ⟨hvw, hrest⟩, by simp [hlength]⟩

theorem isGreatest_depthIn (hg : g.WellFormed) (h : g.Traversal order found) {v : String}
    {depth : Nat} (hdepth : g.depthIn order v = some depth) :
    IsGreatest (chainLengths g.Forward v) depth := by
  refine ⟨h.depthIn_mem_chainLengths hg hdepth, ?_⟩
  rintro n ⟨rest, hchain, rfl⟩
  exact h.length_le_depthIn hg hchain hdepth

theorem isGreatest_greatestDepth (hg : g.WellFormed) (h : g.Traversal order found) :
    IsGreatest (insert 0 {n | ∃ v, g.contains v = true ∧ n ∈ chainLengths g.Forward v})
      (g.greatestDepth order) := by
  obtain ⟨hmem, hle⟩ := foldl_max_spec 0 (g.nodes.keys.filterMap (g.depthIn order))
  constructor
  · rcases List.mem_cons.mp hmem with hzero | hmem
    · exact Or.inl hzero
    · obtain ⟨v, hv, hdepth⟩ := List.mem_filterMap.mp hmem
      exact Or.inr ⟨v, mem_nodes.mp hv, h.depthIn_mem_chainLengths hg hdepth⟩
  · rintro n (rfl | ⟨v, hv, rest, hchain, rfl⟩)
    · exact Nat.zero_le _
    · obtain ⟨depth, hdepth⟩ := exists_depthIn (g := g) ((h.mem_order v).mpr hv)
      have hmem := List.mem_filterMap.mpr ⟨v, mem_nodes.mpr hv, hdepth⟩
      exact (h.length_le_depthIn hg hchain hdepth).trans (hle depth (List.mem_cons_of_mem 0 hmem))

end Traversal

/-- A chain of the calls that are left is a simple path of the graph. -/
theorem isSimplePath_of_forward {g : CallGraph} (hg : g.WellFormed) {v : String}
    {rest : List String} (hv : g.contains v = true) (hchain : (v :: rest).IsChain g.Forward) :
    g.IsSimplePath (v :: rest) := by
  obtain ⟨order, found, h⟩ := traversal_exists hg
  have hlinked : (v :: rest).IsChain g.Calls := hchain.imp fun _ _ hf => hf.1
  refine ⟨nodup_of_rank (h.idxOf_lt_of_forward hg) hchain, hlinked, ?_⟩
  clear hchain
  induction rest generalizing v with
  | nil =>
      intro w hw
      rw [List.mem_singleton.mp hw]
      exact hv
  | cons w rest ih =>
      obtain ⟨hvw, hrest⟩ := List.isChain_cons_cons.mp hlinked
      intro x hx
      rcases List.mem_cons.mp hx with rfl | hx
      · exact hv
      · exact ih (hg.callee hvw) hrest x hx

/-! ## Where no cycle is reachable -/

/-- A call whose caller is on no circuit is left. -/
theorem forward_of_not_isCircuit {g : CallGraph} (hg : g.WellFormed) {u w : String}
    (hcall : g.Calls u w) (hnone : ∀ circuit, u ∈ circuit → ¬ IsCircuit g.Calls circuit) :
    g.Forward u w := by
  refine ⟨hcall, fun hmem => ?_⟩
  obtain ⟨cycle, hcycle, hstep⟩ := mem_closingCalls.mp hmem
  have hu := (mem_of_mem_stepsAround (List.mem_of_getLast? hstep)).1
  exact hnone cycle hu (isCircuit_of_mem_closedCycles hg hcycle)

/-- From a node from which no circuit is reachable all chains of calls are left. -/
theorem chainLengths_eq_of_not_isCircuit {g : CallGraph} (hg : g.WellFormed) {v : String}
    (hnone : ∀ w circuit, Relation.ReflTransGen g.Calls v w → w ∈ circuit →
      ¬ IsCircuit g.Calls circuit) :
    chainLengths g.Forward v = chainLengths g.Calls v := by
  have hchain : ∀ rest, (v :: rest).IsChain g.Calls → (v :: rest).IsChain g.Forward := by
    intro rest
    induction rest generalizing v with
    | nil => exact fun _ => List.isChain_singleton v
    | cons w rest ih =>
        intro h
        obtain ⟨hvw, hrest⟩ := List.isChain_cons_cons.mp h
        refine List.isChain_cons_cons.mpr ⟨forward_of_not_isCircuit hg hvw (hnone v · .refl), ?_⟩
        exact ih (fun x circuit hx => hnone x circuit (hx.head hvw)) hrest
  ext n
  constructor
  · rintro ⟨rest, h, hn⟩
    exact ⟨rest, h.imp fun _ _ hf => hf.1, hn⟩
  · rintro ⟨rest, h, hn⟩
    exact ⟨rest, hchain rest h, hn⟩

/-! ## Graphs without depth -/

/-- If no call is left, functions only call themselves. Otherwise a recorded cycle would go through
several functions, each finished before the next all the way round. -/
theorem eq_of_calls_of_not_forward {g : CallGraph} (hg : g.WellFormed)
    (hnone : ∀ u w, ¬ g.Forward u w) {u w : String} (hcall : g.Calls u w) : u = w := by
  obtain ⟨order, found, h⟩ := traversal_exists hg
  by_contra hne
  have hclosing : (u, w) ∈ found.map BackCall.call := by
    rw [← h.closingCalls_eq hg]
    by_contra hnot
    exact hnone u w ⟨hcall, hnot⟩
  obtain ⟨b, hb, hstep⟩ := List.mem_map.mp hclosing
  obtain ⟨rfl, rfl⟩ := Prod.mk.inj hstep
  have hgenuine := h.genuine b hb
  -- a simple path has no loops, and the closing step is none by assumption
  have hcircuit : IsCircuit (fun u w => g.Calls u w ∧ u ≠ w) b.cycle := by
    obtain ⟨rest, hcycle⟩ := b.cycle_eq_cons
    have hlast := hgenuine.getLast?_cycle
    have hchain := hgenuine.isSimplePath_cycle.isChain_ne
    rw [hcycle] at hlast hchain ⊢
    exact isCircuit_of_isChain hchain hlast ⟨hcall, hne⟩
  refine not_isCircuit_of_rank (fun v => order.length - order.idxOf v) ?_ _ hcircuit
  rintro x y ⟨hxy, hdistinct⟩
  have hx := (h.mem_order x).mpr (hg.caller hxy)
  have hy := (h.mem_order y).mpr (hg.callee hxy)
  have hbefore : FinishedBefore order x y := by
    rcases finishedBefore_or hx hy hdistinct with hbefore | hbefore
    · exact hbefore
    · exact absurd ((h.forward_iff hg).mpr ⟨hxy, hbefore⟩) (hnone x y)
  have hlt := hbefore.idxOf_lt h.nodup
  have hlength := List.idxOf_lt_length_of_mem hx
  show order.length - order.idxOf x < order.length - order.idxOf y
  omega

/-- If functions only call themselves, no call is left. -/
theorem not_forward_of_eq {g : CallGraph} (hg : g.WellFormed)
    (hloops : ∀ u w, g.Calls u w → u = w) (u w : String) : ¬ g.Forward u w := by
  intro hf
  have hcircuit : IsCircuit g.Forward [u] := by
    refine ⟨List.cons_ne_nil u [], ?_⟩
    intro e he
    obtain rfl : e = (u, u) := by simpa [stepsAround] using he
    exact (hloops u w hf.1).symm ▸ hf
  exact not_isCircuit_forward hg [u] hcircuit

namespace Traversal

variable {g : CallGraph} {order : List String} {found : List BackCall}

/-- A greatest depth leaves room for the node where it is attained. -/
theorem greatestDepth_le (hg : g.WellFormed) (h : g.Traversal order found) :
    g.greatestDepth order ≤ g.nodeCount - 1 := by
  rcases (h.isGreatest_greatestDepth hg).1 with hzero | ⟨v, hv, rest, hchain, hlength⟩
  · rw [hzero]
    exact Nat.zero_le _
  · have hle := length_le_of_isSimplePath (isSimplePath_of_forward hg hv hchain)
    rw [List.length_cons] at hle
    omega

theorem greatestDepth_eq_zero_iff (hg : g.WellFormed) (h : g.Traversal order found) :
    g.greatestDepth order = 0 ↔ ∀ u w, g.Calls u w → u = w := by
  have hgreatest := h.isGreatest_greatestDepth hg
  constructor
  · intro hzero u w hcall
    -- a call that is left would be a chain of one step
    refine eq_of_calls_of_not_forward hg ?_ hcall
    intro x y hf
    have hone : 1 ≤ g.greatestDepth order :=
      hgreatest.2 (Or.inr ⟨x, hg.caller hf.1, [y], by simpa using hf, rfl⟩)
    omega
  · intro hloops
    rcases hgreatest.1 with hzero | ⟨v, -, rest, hchain, hlength⟩
    · exact hzero
    · cases rest with
      | nil => exact hlength.symm
      | cons w rest =>
          have hvw := (List.isChain_cons_cons.mp hchain).1
          exact absurd hvw (not_forward_of_eq hg hloops v w)

end Traversal

/-! ## The depths of a fresh session -/

theorem metrics_fresh {contracts : List Contract} {g : CallGraph} {depth : Count} {depths : Depths}
    (hg : ofContracts contracts = .ok g) (hdepth : g.maxDepth ∅ = (depth, depths)) :
    Session.metrics { contracts } =
      (.ok (g.metrics depth), { contracts, known := some g, depths }) := by
  simp only [Session.metrics, Session.currentGraph, hg, hdepth]

/-- After the first metrics a session remembers, for every node, the length of the longest chain of
calls from it without closing steps; the greatest call depth is the greatest of these. -/
theorem depths_longest_forward {contracts : List Contract} {g : CallGraph}
    (hg : ofContracts contracts = .ok g) :
    ∃ m s, Session.metrics { contracts } = (.ok m, s) ∧
      (∀ v, g.contains v = true → ∃ n, s.depths[v]? = some (.ofNat n) ∧
        IsGreatest (chainLengths g.Forward v) n ∧
        ∃ rest, g.IsSimplePath (v :: rest) ∧ rest.length = n) ∧
      (∀ v, g.contains v = false → s.depths[v]? = none) ∧
      (∃ n, m.maxCallDepth = .ofNat n ∧
        IsGreatest (insert 0 {n | ∃ v, g.contains v = true ∧ n ∈ chainLengths g.Forward v}) n ∧
        n ≤ g.nodeCount - 1) ∧
      (∀ v, g.contains v = true →
        (∀ w circuit, Relation.ReflTransGen g.Calls v w → w ∈ circuit →
          ¬ IsCircuit g.Calls circuit) →
        ∃ n, s.depths[v]? = some (.ofNat n) ∧ IsGreatest (chainLengths g.Calls v) n) ∧
      (m.maxCallDepth = 0 ↔ ∀ u w, g.Calls u w → u = w) := by
  have hwell := wellFormed_of_ofContracts hg
  obtain ⟨order, found, h⟩ := traversal_exists hwell
  have hdepths : ∀ v, g.contains v = true → ∃ n, (g.depthTable order)[v]? = some (.ofNat n) ∧
      IsGreatest (chainLengths g.Forward v) n := by
    intro v hv
    obtain ⟨depth, hdepth⟩ := exists_depthIn (g := g) ((h.mem_order v).mpr hv)
    refine ⟨depth, ?_, h.isGreatest_depthIn hwell hdepth⟩
    rw [getElem?_depthTable, hdepth, Option.map_some]
  refine ⟨_, _, metrics_fresh hg (maxDepth_eq hwell h), ?_, ?_,
    ⟨_, rfl, h.isGreatest_greatestDepth hwell, h.greatestDepth_le hwell⟩, ?_, ?_⟩
  · intro v hv
    obtain ⟨n, hn, hgreatest⟩ := hdepths v hv
    obtain ⟨rest, hchain, hlength⟩ := hgreatest.1
    exact ⟨n, hn, hgreatest, rest, isSimplePath_of_forward hwell hv hchain, hlength⟩
  · intro v hv
    have hnot : v ∉ order := fun hmem => by simp [(h.mem_order v).mp hmem] at hv
    rw [getElem?_depthTable, depthIn_eq_none_iff.mpr hnot, Option.map_none]
  · intro v hv hnone
    obtain ⟨n, hn, hgreatest⟩ := hdepths v hv
    exact ⟨n, hn, chainLengths_eq_of_not_isCircuit hwell hnone ▸ hgreatest⟩
  · rw [← h.greatestDepth_eq_zero_iff hwell, ← Count.ofNat_eq_zero_iff]
    rfl

/-- The functions of `crossing` call each other, so its greatest call depth is not 0. -/
theorem depths_crossing :
    ∃ g m s, ofContracts crossing = .ok g ∧ Session.metrics { contracts := crossing } = (.ok m, s) ∧
      m.maxCallDepth ≠ 0 ∧
      ∃ n, s.depths["C.a"]? = some (.ofNat n) ∧ IsGreatest (chainLengths g.Forward "C.a") n := by
  obtain ⟨g, hg, hcheck⟩ := exists_ok_of_any (x := ofContracts crossing)
    (fun g => g.contains "C.a" && g.calls "C.a" "C.b") (by decide +kernel)
  obtain ⟨hnode, hcall⟩ := (Bool.and_eq_true _ _).mp hcheck
  obtain ⟨m, s, hms, hdepths, -, -, -, hzero⟩ := depths_longest_forward hg
  obtain ⟨n, hn, hgreatest, -⟩ := hdepths "C.a" hnode
  refine ⟨g, m, s, hg, hms, ?_, n, hn, hgreatest⟩
  intro h
  exact absurd (hzero.mp h "C.a" "C.b" hcall) (by decide)

end RiskGate.CallGraph

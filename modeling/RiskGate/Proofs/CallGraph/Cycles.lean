import RiskGate.CallGraph.Metrics
import RiskGate.Proofs.CallGraph.CycleSearch
import RiskGate.Proofs.Count

/-! # Recorded cycles and the circuits of the graph

* `closedCycles_hit_circuits`: every circuit takes the closing step of some recorded cycle, so the
  search finds a cycle whenever there is one, and cutting the closing steps leaves none;
* `functionsInCycles_slices`: the functions in cycles are those on the recorded slices of first
  paths. They need not be all functions on circuits, as `crossing` shows;
* `closedCycles_simple`: every recorded cycle is a circuit of distinct nodes, and the metrics agree
  on whether there are any.
-/

namespace RiskGate.CallGraph

/-- The calls that close the recorded cycles. -/
def closingCalls (g : CallGraph) : List (String × String) := g.closedCycles.filterMap closingStep

/-- The calls that are left when those that close the recorded cycles are cut. -/
def Forward (g : CallGraph) (u w : String) : Prop := g.Calls u w ∧ (u, w) ∉ g.closingCalls

instance (r : String → String → Prop) [DecidableRel r] (circuit : List String) :
    Decidable (IsCircuit r circuit) :=
  inferInstanceAs (Decidable (circuit ≠ [] ∧ ∀ e ∈ stepsAround circuit, r e.1 e.2))

/-- The metrics of contracts are those of their call graph, if there is one. -/
theorem metrics_eq (contracts : List Contract) :
    Metrics.ofContracts contracts =
      (ofContracts contracts).map fun g => g.metrics (g.maxDepth ∅).1 := by
  simp only [Metrics.ofContracts, Session.metrics, Session.currentGraph]
  cases ofContracts contracts with
  | error e => rfl
  | ok g => rfl

theorem metrics_ofContracts {contracts : List Contract} {g : CallGraph}
    (hg : ofContracts contracts = .ok g) :
    Metrics.ofContracts contracts = .ok (g.metrics (g.maxDepth ∅).1) := by
  rw [metrics_eq, hg]
  rfl

/-! ## A graph with crossing cycles -/

/-- A contract in which `a` calls `b` and `c`, `b` calls `a`, and `c` calls `b` and makes a
low-level call. -/
def crossing : List Contract :=
  [{ id := "C"
     kind := .concrete
     functions :=
      [{ id := "a"
         visibility := .publicly
         callSites :=
          [{ kind := .internal, name := "b", target := some ⟨"C", "b"⟩, position := 1 },
           { kind := .internal, name := "c", target := some ⟨"C", "c"⟩, position := 2 }] },
       { id := "b"
         visibility := .publicly
         callSites :=
          [{ kind := .internal, name := "a", target := some ⟨"C", "a"⟩, position := 1 }] },
       { id := "c"
         visibility := .publicly
         callSites :=
          [{ kind := .internal, name := "b", target := some ⟨"C", "b"⟩, position := 1 },
           { kind := .lowLevel, name := "call", position := 2 }] }] }]

/-- A result that passes a check. -/
theorem exists_ok_of_any {ε α : Type} {x : Except ε α} (check : α → Bool)
    (h : x.toOption.any check = true) : ∃ a, x = .ok a ∧ check a = true := by
  cases x with
  | error e => cases h
  | ok a => exact ⟨a, rfl, h⟩

/-! ## The closing steps -/

namespace Traversal

variable {g : CallGraph} {order : List String} {found : List BackCall}

theorem map_closingStep (hg : g.WellFormed) (h : g.Traversal order found) :
    g.closedCycles.map closingStep = (found.map BackCall.call).map some := by
  rw [closedCycles_eq hg h, List.map_map, List.map_map]
  apply List.map_congr_left
  intro b hb
  exact (h.genuine b hb).closingStep_cycle

theorem closingCalls_eq (hg : g.WellFormed) (h : g.Traversal order found) :
    g.closingCalls = found.map BackCall.call := by
  have hsome := h.map_closingStep hg
  calc g.closingCalls
      = (g.closedCycles.map closingStep).filterMap id := by rw [List.filterMap_map]; rfl
    _ = found.map BackCall.call := by rw [hsome, List.filterMap_map]; simp

/-- A call is left exactly if its callee is finished before its caller. -/
theorem forward_iff (hg : g.WellFormed) (h : g.Traversal order found) {u w : String} :
    g.Forward u w ↔ g.Calls u w ∧ FinishedBefore order w u := by
  unfold Forward
  rw [h.closingCalls_eq hg]
  constructor
  · rintro ⟨hcall, hnot⟩
    by_contra hbefore
    exact hnot ((h.mem_calls_found hg hcall).mpr fun hb => hbefore ⟨hcall, hb⟩)
  · rintro ⟨hcall, hbefore⟩
    exact ⟨hcall, fun hmem => (h.mem_calls_found hg hcall).mp hmem hbefore⟩

theorem idxOf_lt_of_forward (hg : g.WellFormed) (h : g.Traversal order found) (u w : String)
    (hf : g.Forward u w) : order.idxOf u < order.idxOf w :=
  ((h.forward_iff hg).mp hf).2.idxOf_lt h.nodup

end Traversal

/-- Cutting the closing steps leaves no circuit. -/
theorem not_isCircuit_forward {g : CallGraph} (hg : g.WellFormed) (circuit : List String) :
    ¬ IsCircuit g.Forward circuit := by
  obtain ⟨order, found, h⟩ := traversal_exists hg
  exact not_isCircuit_of_rank order.idxOf (h.idxOf_lt_of_forward hg) circuit

/-- Every circuit takes one of the closing steps. -/
theorem exists_closingCall_of_isCircuit {g : CallGraph} (hg : g.WellFormed) {circuit : List String}
    (hc : IsCircuit g.Calls circuit) : ∃ e ∈ stepsAround circuit, e ∈ g.closingCalls := by
  by_contra hnone
  -- otherwise every step would be left, but what is left has no circuit
  refine not_isCircuit_forward hg circuit ⟨hc.1, ?_⟩
  intro e he
  exact ⟨hc.2 e he, fun hmem => hnone ⟨e, he, hmem⟩⟩

theorem mem_closingCalls {g : CallGraph} {e : String × String} :
    e ∈ g.closingCalls ↔ ∃ cycle ∈ g.closedCycles, closingStep cycle = some e := by
  simp [closingCalls]

/-- The recorded cycles are circuits without repetition. -/
theorem isSimpleCircuit_of_mem_closedCycles {g : CallGraph} (hg : g.WellFormed)
    {cycle : List String} (h : cycle ∈ g.closedCycles) : g.IsSimpleCircuit cycle := by
  obtain ⟨order, found, ht⟩ := traversal_exists hg
  rw [closedCycles_eq hg ht] at h
  obtain ⟨b, hb, rfl⟩ := List.mem_map.mp h
  exact (ht.genuine b hb).isSimpleCircuit_cycle

theorem isCircuit_of_mem_closedCycles {g : CallGraph} (hg : g.WellFormed) {cycle : List String}
    (h : cycle ∈ g.closedCycles) : IsCircuit g.Calls cycle :=
  (isSimpleCircuit_of_mem_closedCycles hg h).closed

theorem closedCycles_eq_nil_iff {g : CallGraph} (hg : g.WellFormed) :
    g.closedCycles = [] ↔ ∀ circuit, ¬ IsCircuit g.Calls circuit := by
  constructor
  · intro hnil circuit hc
    obtain ⟨e, -, he⟩ := exists_closingCall_of_isCircuit hg hc
    obtain ⟨cycle, hcycle, -⟩ := mem_closingCalls.mp he
    rw [hnil] at hcycle
    cases hcycle
  · intro hnone
    refine List.eq_nil_iff_forall_not_mem.mpr ?_
    intro cycle hcycle
    exact hnone cycle (isCircuit_of_mem_closedCycles hg hcycle)

/-- The closing steps are distinct calls, one for each recorded cycle. -/
theorem closingCalls_spec {g : CallGraph} (hg : g.WellFormed) :
    g.closedCycles.map closingStep = g.closingCalls.map some ∧ g.closingCalls.Nodup ∧
      ∀ e ∈ g.closingCalls, g.Calls e.1 e.2 := by
  obtain ⟨order, found, h⟩ := traversal_exists hg
  rw [h.map_closingStep hg, h.closingCalls_eq hg]
  refine ⟨rfl, h.distinct, ?_⟩
  intro e he
  obtain ⟨b, hb, rfl⟩ := List.mem_map.mp he
  exact (h.genuine b hb).calls

/-- The recorded cycles meet every circuit of a constructed graph in a closing step, and there are
as many of them as distinct closing steps. -/
theorem closedCycles_hit_circuits {contracts : List Contract} {g : CallGraph}
    (hg : ofContracts contracts = .ok g) :
    ∃ m, Metrics.ofContracts contracts = .ok m ∧
      (∀ circuit, IsCircuit g.Calls circuit →
        ∃ cycle ∈ g.closedCycles, ∃ e ∈ stepsAround circuit, closingStep cycle = some e) ∧
      g.closedCycles.map closingStep = g.closingCalls.map some ∧
      g.closingCalls.Nodup ∧
      (∀ e ∈ g.closingCalls, g.Calls e.1 e.2) ∧
      m.cycleCount = .ofNat g.closingCalls.length ∧
      g.closingCalls.length ≤ g.edgeCount ∧
      (m.hasCycles = true ↔ ∃ circuit, IsCircuit g.Calls circuit) ∧
      ∀ circuit, ¬ IsCircuit g.Forward circuit := by
  have hwell := wellFormed_of_ofContracts hg
  obtain ⟨hclosing, hnodup, hcalls⟩ := closingCalls_spec hwell
  have hlength : g.closedCycles.length = g.closingCalls.length := by
    simpa using congrArg List.length hclosing
  refine ⟨_, metrics_ofContracts hg, ?_, hclosing, hnodup, hcalls, ?_,
    length_le_edgeCount hnodup hcalls, ?_, not_isCircuit_forward hwell⟩
  · intro circuit hc
    obtain ⟨e, he, hmem⟩ := exists_closingCall_of_isCircuit hwell hc
    obtain ⟨cycle, hcycle, hstep⟩ := mem_closingCalls.mp hmem
    exact ⟨cycle, hcycle, e, he, hstep⟩
  · simp only [metrics, hlength]
  · have hempty : (g.metrics (g.maxDepth ∅).1).hasCycles = true ↔ g.closedCycles ≠ [] := by
      simp [metrics]
    rw [hempty, ne_eq, closedCycles_eq_nil_iff hwell, not_forall_not]

/-- In `crossing` the functions `a` and `b` call each other, so a cycle is found. -/
theorem closedCycles_hit_crossing :
    ∃ g m, ofContracts crossing = .ok g ∧ Metrics.ofContracts crossing = .ok m ∧
      m.hasCycles = true ∧ g.closingCalls.length ≤ g.edgeCount := by
  obtain ⟨g, hg, hcircuit⟩ := exists_ok_of_any (x := ofContracts crossing)
    (fun g => IsCircuit g.Calls ["C.a", "C.b"]) (by decide +kernel)
  obtain ⟨m, hm, -, -, -, -, -, hlength, hcycles, -⟩ := closedCycles_hit_circuits hg
  exact ⟨g, m, hg, hm, hcycles.mpr ⟨_, of_decide_eq_true hcircuit⟩, hlength⟩

/-! ## The functions in cycles -/

theorem mem_functionsIn {cycles : List (List String)} {v : String} :
    v ∈ functionsIn cycles ↔ ∃ cycle ∈ cycles, v ∈ cycle := by
  simp [functionsIn]

/-- A function is in a recorded cycle exactly if it stands, on the first path to some node, at or
after a callee of that node. -/
theorem mem_functionsIn_closedCycles {g : CallGraph} (hg : g.WellFormed) {v : String} :
    v ∈ functionsIn g.closedCycles ↔
      ∃ u w before after, g.Calls u w ∧ g.IsFirstPath (before ++ w :: after) u ∧
        v ∈ w :: after := by
  obtain ⟨order, found, h⟩ := traversal_exists hg
  rw [closedCycles_eq hg h, mem_functionsIn]
  constructor
  · rintro ⟨cycle, hcycle, hv⟩
    obtain ⟨b, hb, rfl⟩ := List.mem_map.mp hcycle
    have hgenuine := h.genuine b hb
    obtain ⟨before, hsplit⟩ := hgenuine.exists_append_cycle
    obtain ⟨after, hcons⟩ := b.cycle_eq_cons
    rw [hcons] at hv hsplit
    exact ⟨b.caller, b.callee, before, after, hgenuine.calls, hsplit ▸ hgenuine.first, hv⟩
  · rintro ⟨u, w, before, after, hcall, hfirst, hv⟩
    obtain ⟨init, hinit⟩ := List.getLast?_eq_some_iff.mp hfirst.ends
    have hpath : (u :: init.reverse).reverse = before ++ w :: after := by simp [hinit]
    -- the call goes back to the first path to its caller, so it has been found
    have hgenuine : BackCall.IsGenuine g ⟨u, init.reverse, w⟩ := by
      refine ⟨hcall, ?_, ?_⟩
      · rw [← List.mem_reverse, hpath]
        simp
      · rw [hpath]
        exact hfirst
    have hcycle := hgenuine.cycle_eq hpath
    exact ⟨_, List.mem_map.mpr ⟨_, (h.mem_found hg).mpr hgenuine, hcycle⟩, hv⟩

/-- Every circuit has a step between functions in cycles. -/
theorem exists_step_in_functionsIn {g : CallGraph} (hg : g.WellFormed) {circuit : List String}
    (hc : IsCircuit g.Calls circuit) :
    ∃ e ∈ stepsAround circuit,
      e.1 ∈ functionsIn g.closedCycles ∧ e.2 ∈ functionsIn g.closedCycles := by
  obtain ⟨e, he, hmem⟩ := exists_closingCall_of_isCircuit hg hc
  obtain ⟨cycle, hcycle, hstep⟩ := mem_closingCalls.mp hmem
  have hends := mem_of_mem_stepsAround (List.mem_of_getLast? hstep)
  exact ⟨e, he, mem_functionsIn.mpr ⟨cycle, hcycle, hends.1⟩,
    mem_functionsIn.mpr ⟨cycle, hcycle, hends.2⟩⟩

/-- A step around at most two nodes goes through all of them. -/
theorem mem_step_of_length_le_two {circuit : List String} {e : String × String}
    (he : e ∈ stepsAround circuit) (hlen : circuit.length ≤ 2) {v : String} (hv : v ∈ circuit) :
    v = e.1 ∨ v = e.2 := by
  match circuit with
  | [] => cases hv
  | [a] =>
      obtain rfl : e = (a, a) := by simpa [stepsAround] using he
      exact Or.inl (List.mem_singleton.mp hv)
  | [a, b] =>
      have hends : v = a ∨ v = b := by simpa using hv
      have hstep : e = (a, b) ∨ e = (b, a) := by simpa [stepsAround] using he
      rcases hstep with rfl | rfl
      · exact hends
      · exact hends.symm
  | _ :: _ :: _ :: _ => simp at hlen

/-- The weights of the functions in cycles are added up without a limit and cut once. -/
theorem toNat_externalCallsInCycles (g : CallGraph) (maxCallDepth : Count) :
    (g.metrics maxCallDepth).externalCallsInCycles.toNat =
      min (∑ v ∈ (functionsIn g.closedCycles).toList.toFinset, (g.weight v).toNat) countLimit := by
  have hnodup : (functionsIn g.closedCycles).toList.Nodup := nodup_of_sorted (sorted_toList _)
  simp only [metrics, Count.sum_eq, Count.toNat_ofNat, List.map_map, List.sum_toFinset _ hnodup]
  rfl

theorem externalCallInCycle_iff (g : CallGraph) (maxCallDepth : Count) :
    (g.metrics maxCallDepth).externalCallInCycle = true ↔
      ∃ v ∈ functionsIn g.closedCycles, 0 < g.weight v := by
  have hpos : 0 < (g.metrics maxCallDepth).externalCallsInCycles ↔
      ∃ v ∈ functionsIn g.closedCycles, 0 < g.weight v := by
    simp [metrics, Count.sum_pos_iff]
  rw [Metrics.externalCallInCycle, Bool.and_eq_true, decide_eq_true_iff, hpos]
  constructor
  · exact fun h => h.2
  · rintro ⟨v, hv, hweight⟩
    -- a function in cycles is in some cycle, so there are cycles
    obtain ⟨cycle, hcycle, -⟩ := mem_functionsIn.mp hv
    have hcycles : g.closedCycles ≠ [] := List.ne_nil_of_mem hcycle
    exact ⟨by simpa [metrics] using hcycles, v, hv, hweight⟩

/-- There are functions in cycles exactly if a cycle is recorded, as no cycle is empty. -/
theorem exists_mem_functionsIn_iff {g : CallGraph} (hg : g.WellFormed) :
    (∃ v, v ∈ functionsIn g.closedCycles) ↔ g.closedCycles ≠ [] := by
  constructor
  · rintro ⟨v, hv⟩
    obtain ⟨cycle, hcycle, -⟩ := mem_functionsIn.mp hv
    exact List.ne_nil_of_mem hcycle
  · intro hne
    obtain ⟨cycle, hcycle⟩ := List.exists_mem_of_ne_nil _ hne
    obtain ⟨v, hv⟩ := List.exists_mem_of_ne_nil _ (isCircuit_of_mem_closedCycles hg hcycle).1
    exact ⟨v, mem_functionsIn.mpr ⟨cycle, hcycle, hv⟩⟩

/-- The metrics say that there are cycles exactly if one is recorded. -/
theorem hasCycles_iff (g : CallGraph) (maxCallDepth : Count) :
    (g.metrics maxCallDepth).hasCycles = true ↔ g.closedCycles ≠ [] := by
  simp [metrics]

theorem cycleCount_pos_iff (g : CallGraph) (maxCallDepth : Count) :
    0 < (g.metrics maxCallDepth).cycleCount ↔ g.closedCycles ≠ [] := by
  rw [metrics, Count.ofNat_pos_iff, List.length_pos_iff]

/-- The functions in cycles are those on the slices of first paths that a call closes. A circuit
always has two neighbours among them, and it is among them as a whole if it has at most two nodes.
External calls are counted over these functions alone. -/
theorem functionsInCycles_slices {contracts : List Contract} {g : CallGraph}
    (hg : ofContracts contracts = .ok g) :
    ∃ m, Metrics.ofContracts contracts = .ok m ∧
      (∀ v, v ∈ m.functionsInCycles ↔
        ∃ u w before after, g.Calls u w ∧ g.IsFirstPath (before ++ w :: after) u ∧
          v ∈ w :: after) ∧
      (∀ v ∈ m.functionsInCycles, ∃ circuit, IsCircuit g.Calls circuit ∧ v ∈ circuit) ∧
      (∀ circuit, IsCircuit g.Calls circuit →
        ∃ e ∈ stepsAround circuit, e.1 ∈ m.functionsInCycles ∧ e.2 ∈ m.functionsInCycles) ∧
      (∀ circuit, IsCircuit g.Calls circuit → circuit.length ≤ 2 →
        ∀ v ∈ circuit, v ∈ m.functionsInCycles) ∧
      m.externalCallsInCycles.toNat =
        min (∑ v ∈ m.functionsInCycles.toList.toFinset, (g.weight v).toNat) countLimit ∧
      (m.externalCallInCycle = true ↔ ∃ v ∈ m.functionsInCycles, 0 < g.weight v) := by
  have hwell := wellFormed_of_ofContracts hg
  refine ⟨_, metrics_ofContracts hg, fun v => mem_functionsIn_closedCycles hwell, ?_,
    fun circuit hc => exists_step_in_functionsIn hwell hc, ?_, ?_, ?_⟩
  · intro v hv
    obtain ⟨cycle, hcycle, hmem⟩ := mem_functionsIn.mp hv
    exact ⟨cycle, isCircuit_of_mem_closedCycles hwell hcycle, hmem⟩
  · intro circuit hc hlen v hv
    obtain ⟨e, he, hfst, hsnd⟩ := exists_step_in_functionsIn hwell hc
    rcases mem_step_of_length_le_two he hlen hv with rfl | rfl
    · exact hfst
    · exact hsnd
  · exact toNat_externalCallsInCycles g _
  · exact externalCallInCycle_iff g _

/-- In `crossing` the functions `a` and `b` call each other, and both are in cycles. -/
theorem functionsInCycles_crossing :
    ∃ m, Metrics.ofContracts crossing = .ok m ∧ ∀ v ∈ ["C.a", "C.b"], v ∈ m.functionsInCycles := by
  obtain ⟨g, hg, hcircuit⟩ := exists_ok_of_any (x := ofContracts crossing)
    (fun g => IsCircuit g.Calls ["C.a", "C.b"]) (by decide +kernel)
  obtain ⟨m, hm, -, -, -, hshort, -, -⟩ := functionsInCycles_slices hg
  exact ⟨m, hm, hshort _ (of_decide_eq_true hcircuit) (Nat.le_refl 2)⟩

/-- In `crossing` there is a circuit through all three functions. The function `c` is on it and
makes an external call, but it is in no recorded cycle: when the search looks at it, `b` is
finished. -/
theorem crossing_misses_caller :
    ∃ g m, ofContracts crossing = .ok g ∧ Metrics.ofContracts crossing = .ok m ∧
      IsCircuit g.Calls ["C.a", "C.c", "C.b"] ∧ "C.c" ∉ m.functionsInCycles ∧
      0 < g.weight "C.c" ∧ m.externalCallsInCycles = 0 ∧ m.externalCallInCycle = false := by
  obtain ⟨g, hg, hcheck⟩ := exists_ok_of_any (x := ofContracts crossing)
    (fun g =>
      let m := g.metrics (g.maxDepth ∅).1
      decide (IsCircuit g.Calls ["C.a", "C.c", "C.b"] ∧ "C.c" ∉ m.functionsInCycles ∧
        0 < g.weight "C.c" ∧ m.externalCallsInCycles = 0 ∧ m.externalCallInCycle = false))
    (by decide +kernel)
  exact ⟨g, _, hg, metrics_ofContracts hg, of_decide_eq_true hcheck⟩

/-! ## Recorded cycles -/

/-- Every recorded cycle is a circuit of distinct nodes, so every function in cycles lies on such a
circuit. The three ways in which the metrics say that there are cycles agree, and they speak of an
external call in a cycle only if a function on such a circuit makes one. -/
theorem closedCycles_simple {contracts : List Contract} {g : CallGraph}
    (hg : ofContracts contracts = .ok g) :
    (∀ cycle ∈ g.closedCycles, g.IsSimpleCircuit cycle) ∧
      ∃ m, Metrics.ofContracts contracts = .ok m ∧
        (∀ v ∈ m.functionsInCycles, ∃ cycle, g.IsSimpleCircuit cycle ∧ v ∈ cycle) ∧
        (m.hasCycles = true ↔ 0 < m.cycleCount) ∧
        (m.hasCycles = true ↔ ∃ v, v ∈ m.functionsInCycles) ∧
        (m.externalCallInCycle = true →
          ∃ cycle v, g.IsSimpleCircuit cycle ∧ v ∈ cycle ∧ 0 < g.weight v) := by
  have hwell := wellFormed_of_ofContracts hg
  have hsimple : ∀ cycle ∈ g.closedCycles, g.IsSimpleCircuit cycle :=
    fun cycle hcycle => isSimpleCircuit_of_mem_closedCycles hwell hcycle
  -- a function in cycles is on a recorded cycle, whichever of the metrics named it
  have hmember : ∀ v ∈ functionsIn g.closedCycles,
      ∃ cycle, g.IsSimpleCircuit cycle ∧ v ∈ cycle := by
    intro v hv
    obtain ⟨cycle, hcycle, hmem⟩ := mem_functionsIn.mp hv
    exact ⟨cycle, hsimple cycle hcycle, hmem⟩
  refine ⟨hsimple, _, metrics_ofContracts hg, hmember, ?_, ?_, ?_⟩
  · rw [hasCycles_iff, cycleCount_pos_iff]
  · rw [hasCycles_iff, ← exists_mem_functionsIn_iff hwell]
    exact Iff.rfl
  · intro hexternal
    obtain ⟨v, hv, hweight⟩ := (externalCallInCycle_iff g _).mp hexternal
    obtain ⟨cycle, hcycle, hmem⟩ := hmember v hv
    exact ⟨cycle, v, hcycle, hmem, hweight⟩

/-- In `crossing` the cycle of `a` and `b` is recorded. -/
theorem closedCycles_simple_crossing :
    ∃ g m, ofContracts crossing = .ok g ∧ Metrics.ofContracts crossing = .ok m ∧
      ["C.a", "C.b"] ∈ g.closedCycles ∧ g.IsSimpleCircuit ["C.a", "C.b"] ∧
      m.hasCycles = true ∧ 0 < m.cycleCount := by
  obtain ⟨g, hg, hcheck⟩ := exists_ok_of_any (x := ofContracts crossing)
    (fun g => decide (["C.a", "C.b"] ∈ g.closedCycles)) (by decide +kernel)
  have hcycle := of_decide_eq_true hcheck
  obtain ⟨hsimple, m, hm, -, hcount, -, -⟩ := closedCycles_simple hg
  have hcycles : m.hasCycles = true := by
    obtain rfl := Except.ok.inj ((metrics_ofContracts hg).symm.trans hm)
    exact (hasCycles_iff g _).mpr (List.ne_nil_of_mem hcycle)
  exact ⟨g, m, hg, hm, hcycle, hsimple _ hcycle, hcycles, hcount.mp hcycles⟩

end RiskGate.CallGraph

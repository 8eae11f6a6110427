import RiskGate.CallGraph.Cycles
import RiskGate.Proofs.CallGraph.Exploration

/-! # The search for cycles

The search for cycles goes through the graph as an exploration does, and lists one cycle for every
call that the exploration finds to lead back.

* `leads_of_explores`: the steps of the search between two states of an exploration;
* `closedCycles_eq`: what is recorded over all roots.
-/

namespace RiskGate

/-! ## The cycle that a call closes -/

namespace CallGraph

/-- A path, read from its outermost node, ends in the part from one of its nodes on. -/
theorem exists_append_closing {path : List String} {node : String} (h : node ∈ path) :
    ∃ before, path.reverse = before ++ CycleSearch.closing path node := by
  induction path with
  | nil => cases h
  | cons v path ih =>
      by_cases hv : v = node
      · subst hv
        exact ⟨path.reverse, by simp [CycleSearch.closing]⟩
      · have hnode : node ∈ path := by
          rcases List.mem_cons.mp h with rfl | h
          · exact absurd rfl hv
          · exact h
        obtain ⟨before, hbefore⟩ := ih hnode
        refine ⟨before, ?_⟩
        have htake : (v :: path).takeWhile (· ≠ node) = v :: path.takeWhile (· ≠ node) := by
          rw [List.takeWhile_cons_of_pos]
          simpa using hv
        rw [CycleSearch.closing] at hbefore ⊢
        rw [List.reverse_cons, hbefore, htake, List.reverse_cons, List.append_assoc,
          List.cons_append]

namespace BackCall

/-- The cycle that a call back closes: the path from the callee to the caller. -/
def cycle (b : BackCall) : List String := CycleSearch.closing (b.caller :: b.outer) b.callee

theorem IsGenuine.exists_append_cycle {g : CallGraph} {b : BackCall} (h : b.IsGenuine g) :
    ∃ before, (b.caller :: b.outer).reverse = before ++ b.cycle :=
  exists_append_closing h.onPath

theorem IsGenuine.isSimplePath_cycle {g : CallGraph} {b : BackCall} (h : b.IsGenuine g) :
    g.IsSimplePath b.cycle := by
  obtain ⟨before, hsplit⟩ := h.exists_append_cycle
  have hsimple := h.first.simple
  rw [hsplit] at hsimple
  exact ⟨hsimple.distinct.of_append_right, hsimple.linked.right_of_append,
    fun v hv => hsimple.nodes v (List.mem_append_right before hv)⟩

/-- The cycle begins with the callee. -/
theorem cycle_eq_cons (b : BackCall) : ∃ rest, b.cycle = b.callee :: rest := ⟨_, rfl⟩

/-- The cycle ends with the caller. -/
theorem IsGenuine.getLast?_cycle {g : CallGraph} {b : BackCall} (h : b.IsGenuine g) :
    b.cycle.getLast? = some b.caller := by
  obtain ⟨before, hsplit⟩ := h.exists_append_cycle
  have hends := h.first.ends
  have hne : b.cycle ≠ [] := List.cons_ne_nil _ _
  rwa [hsplit, List.getLast?_append_of_ne_nil before hne] at hends

theorem IsGenuine.isCircuit_cycle {g : CallGraph} {b : BackCall} (h : b.IsGenuine g) :
    IsCircuit g.Calls b.cycle := by
  obtain ⟨rest, hcycle⟩ := b.cycle_eq_cons
  have hlast := h.getLast?_cycle
  have hlinked := h.isSimplePath_cycle.linked
  rw [hcycle] at hlast hlinked ⊢
  exact isCircuit_of_isChain hlinked hlast h.calls

theorem IsGenuine.isSimpleCircuit_cycle {g : CallGraph} {b : BackCall} (h : b.IsGenuine g) :
    g.IsSimpleCircuit b.cycle :=
  ⟨h.isCircuit_cycle, h.isSimplePath_cycle.distinct, h.isSimplePath_cycle.nodes⟩

theorem IsGenuine.closingStep_cycle {g : CallGraph} {b : BackCall} (h : b.IsGenuine g) :
    closingStep b.cycle = some b.call := by
  obtain ⟨rest, hcycle⟩ := b.cycle_eq_cons
  have hlast := h.getLast?_cycle
  rw [hcycle] at hlast ⊢
  exact closingStep_eq hlast

/-- The cycle is what stands from the callee on, wherever it stands. -/
theorem IsGenuine.cycle_eq {g : CallGraph} {b : BackCall} (h : b.IsGenuine g)
    {before after : List String}
    (hpath : (b.caller :: b.outer).reverse = before ++ b.callee :: after) :
    b.cycle = b.callee :: after := by
  obtain ⟨before', hsplit⟩ := h.exists_append_cycle
  obtain ⟨rest, hcycle⟩ := b.cycle_eq_cons
  have hdistinct := h.first.simple.distinct
  rw [hcycle] at hsplit ⊢
  rw [hpath] at hsplit hdistinct
  rw [List.nodup_middle, List.nodup_cons, List.mem_append, not_or] at hdistinct
  obtain ⟨-, -, hrest⟩ :=
    (List.append_cons_inj_of_notMem hdistinct.1.1 hdistinct.1.2).mp hsplit
  rw [hrest]

end BackCall

end CallGraph

/-! ## Steps of the search -/

namespace CycleSearch

open CallGraph

/-- The search at the end of `path`, with the finished nodes `done`. -/
def state (frames : List (List String)) (path done : List String) (cycles : List (List String)) :
    CycleSearch where
  frames
  path
  onPath := namesOf path
  visited := namesOf (path ++ done)
  cycles

variable {g : CallGraph} {frames : List (List String)} {path pending done : List String}
  {cycles : List (List String)} {u next : String}

theorem step_known (hpath : next ∉ path) (hdone : next ∈ done) :
    (state ((next :: pending) :: frames) path done cycles).step g =
      some (state (pending :: frames) path done cycles) := by
  simp [step, state, hpath, hdone]

theorem step_back (hpath : next ∈ path) :
    (state ((next :: pending) :: frames) path done cycles).step g =
      some (state (pending :: frames) path done (closing path next :: cycles)) := by
  simp [step, state, hpath]

theorem step_enter (hpath : next ∉ path) (hdone : next ∉ done) :
    (state ((next :: pending) :: frames) path done cycles).step g =
      some (state (g.successors next :: pending :: frames) (next :: path) done cycles) := by
  simp [step, state, hpath, hdone, insert_namesOf]

theorem step_leave (hu : u ∉ path) :
    (state ([] :: frames) (u :: path) done cycles).step g =
      some (state frames path (u :: done) cycles) := by
  -- the node goes from the path to the finished nodes and stays visited
  have hvisited : namesOf (u :: path ++ done) = namesOf (path ++ u :: done) := by
    apply namesOf_congr
    intro v
    simp only [List.cons_append, List.mem_cons, List.mem_append]
    tauto
  simp only [step, state, erase_namesOf hu, hvisited]

/-- A search with an empty path is over. -/
theorem run_over (limit : Nat) : (state [] path done cycles).run g limit =
    state [] path done cycles := by
  cases limit with
  | zero => rfl
  | succ limit => rfl

theorem leads_of_step {s s' : CycleSearch} (h : s.step g = some s') : Leads (run g) 1 s s' :=
  leads_one fun limit => by rw [run, h]

/-- The search follows an exploration. The steps are counted by the calls looked at and the nodes
left: what is pending at first, and the effort for every node finished on the way. -/
theorem leads_of_explores {done' : List String} {found : List BackCall} (hg : g.WellFormed)
    (h : g.Explores path pending done done' found) (hr : g.Ready path pending done) :
    ∃ n, n + g.effort done = pending.length + g.effort done' ∧
      ∀ frames cycles, Leads (run g) n (state (pending :: frames) path done cycles)
        (state ([] :: frames) path done' ((found.map BackCall.cycle).reverse ++ cycles)) := by
  induction h with
  | nil => exact ⟨0, by simp, fun frames cycles => leads_refl (run g) _⟩
  | @known path pending done done' next found hnext _ ih =>
      obtain ⟨n, hn, hleads⟩ := ih (hr.skip (Or.inl hnext))
      refine ⟨1 + n, by simp only [List.length_cons]; omega, ?_⟩
      intro frames cycles
      have hpath : next ∉ path := fun hp => hr.notMem_done hp hnext
      exact (leads_of_step (step_known hpath hnext)).trans (hleads frames cycles)
  | @back outer pending done done' caller next found hnext _ ih =>
      obtain ⟨n, hn, hleads⟩ := ih (hr.skip (Or.inr hnext))
      refine ⟨1 + n, by simp only [List.length_cons]; omega, ?_⟩
      intro frames cycles
      have hrest := hleads frames (closing (caller :: outer) next :: cycles)
      rw [List.map_cons, List.reverse_cons, List.append_assoc, List.singleton_append]
      exact (leads_of_step (step_back hnext)).trans hrest
  | @enter path pending done between done' next inner found hdone hpath hin _ ihin ihout =>
      have henter := hr.enter hg hdone hpath
      have hresume := hr.resume hg hdone hpath hin
      obtain ⟨m, hm, hinner⟩ := ihin henter
      obtain ⟨n, hn, houter⟩ := ihout hresume
      rw [effort_cons] at hn
      -- one step into the node, its callees, one step out of it, and what is still pending
      refine ⟨1 + m + 1 + n, by simp only [List.length_cons]; omega, ?_⟩
      intro frames cycles
      rw [List.map_append, List.reverse_append, List.append_assoc]
      have hinto : Leads (run g) 1 (state ((next :: pending) :: frames) path done cycles)
          (state (g.successors next :: pending :: frames) (next :: path) done cycles) :=
        leads_of_step (step_enter hpath hdone)
      have hthrough := hinto.trans (hinner (pending :: frames) cycles)
      exact (hthrough.trans (leads_of_step (step_leave hpath))).trans (houter frames _)

end CycleSearch

/-! ## All roots -/

namespace CallGraph

/-- A root that is finished already changes nothing. -/
theorem cyclesFrom_known {g : CallGraph} {done : List String} {root : String}
    (cycles : List (List String)) (h : root ∈ done) :
    g.cyclesFrom (namesOf done, cycles) root = (namesOf done, cycles) := by
  simp [cyclesFrom, h]

/-- From a new root the search finishes what an exploration from there finishes. -/
theorem cyclesFrom_enter {g : CallGraph} (hg : g.WellFormed) {done between : List String}
    {root : String} {inner : List BackCall} (cycles : List (List String)) (hroot : root ∉ done)
    (h : g.Explores [root] (g.successors root) done between inner)
    (hr : g.Ready [root] (g.successors root) done) :
    g.cyclesFrom (namesOf done, cycles) root =
      (namesOf (root :: between), (inner.map BackCall.cycle).reverse ++ cycles) := by
  obtain ⟨n, hn, hleads⟩ := CycleSearch.leads_of_explores hg h hr
  obtain ⟨spare, hspare⟩ : ∃ spare, g.stepLimit = n + 1 + spare := by
    have hlimit := lt_stepLimit_of_explores hg h hr hn
    exact ⟨g.stepLimit - (n + 1), by omega⟩
  have hstart : CycleSearch.start g root (namesOf done) cycles =
      CycleSearch.state [g.successors root] [root] done cycles := by
    simp only [CycleSearch.start, CycleSearch.state, insert_namesOf, List.singleton_append]
    rfl
  -- the search is over before the limit, and stays as it is for the steps to spare
  have hrun := ((hleads [] cycles).trans
    (CycleSearch.leads_of_step (CycleSearch.step_leave List.not_mem_nil))) spare
  rw [CycleSearch.run_over] at hrun
  have hnew : (namesOf done).contains root = false := by simp [hroot]
  simp only [cyclesFrom, hnew, Bool.false_eq_true, if_false, hstart, hspare, hrun]
  rfl

/-- The search over all roots follows an exploration with an empty path. -/
theorem foldl_cyclesFrom {g : CallGraph} (hg : g.WellFormed) {pending done done' : List String}
    {found : List BackCall} (h : g.Explores [] pending done done' found)
    (hr : g.Ready [] pending done) (cycles : List (List String)) :
    pending.foldl g.cyclesFrom (namesOf done, cycles) =
      (namesOf done', (found.map BackCall.cycle).reverse ++ cycles) := by
  generalize hpath : ([] : List String) = path at h hr
  induction h generalizing cycles with
  | nil => rfl
  | known hnext _ ih =>
      rw [List.foldl_cons, cyclesFrom_known cycles hnext]
      exact ih cycles hpath (hr.skip (Or.inl hnext))
  | back => cases hpath
  | enter hdone hnot hin _ _ ihout =>
      have henter := hr.enter hg hdone hnot
      have hresume := hr.resume hg hdone hnot hin
      subst hpath
      rw [List.foldl_cons, cyclesFrom_enter hg cycles hdone hin henter, ihout _ rfl hresume]
      simp

/-- The cycles recorded are those of the calls found, in the order in which they are found. -/
theorem closedCycles_eq {g : CallGraph} (hg : g.WellFormed) {order : List String}
    {found : List BackCall} (h : g.Traversal order found) :
    g.closedCycles = found.map BackCall.cycle := by
  have hfold := foldl_cyclesFrom hg h.explores (ready_start g) []
  have hempty : (∅ : Names) = namesOf [] := rfl
  rw [closedCycles, hempty, hfold, List.append_nil, List.reverse_reverse]

end CallGraph

end RiskGate

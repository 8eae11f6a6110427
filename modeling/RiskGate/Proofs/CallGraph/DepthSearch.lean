import RiskGate.CallGraph.Depth
import RiskGate.Proofs.CallGraph.Exploration
import RiskGate.Proofs.Count

/-! # The search for depths

The search for depths goes through the graph as an exploration does, and what it remembers is a
function of the order in which nodes are finished.

* `depthIn`, the depth of a finished node, over the callees finished before it;
* `leads_of_explores`: the steps of the search between two states of an exploration;
* `maxDepth_eq`: what is returned and remembered over all roots.
-/

namespace RiskGate

namespace CallGraph

/-! ## Depths by the order of finishing -/

theorem foldl_max_spec (first : Nat) (rest : List Nat) :
    rest.foldl max first ∈ first :: rest ∧ ∀ n ∈ first :: rest, n ≤ rest.foldl max first :=
  List.max?_eq_some_iff.mp List.max?_cons'

/-- One more than the greatest of the depths, or `best` if that is greater. -/
def raised (best : Nat) (depths : List Nat) : Nat := (depths.map (· + 1)).foldl max best

theorem raised_cons (best depth : Nat) (depths : List Nat) :
    raised best (depth :: depths) = raised (max best (depth + 1)) depths := rfl

theorem succ_le_raised {best depth : Nat} {depths : List Nat} (h : depth ∈ depths) :
    depth + 1 ≤ raised best depths :=
  (foldl_max_spec best _).2 _ (List.mem_cons_of_mem best (List.mem_map_of_mem h))

/-- The bound is attained. -/
theorem raised_eq (best : Nat) (depths : List Nat) :
    raised best depths = best ∨ ∃ depth ∈ depths, raised best depths = depth + 1 := by
  rcases List.mem_cons.mp (foldl_max_spec best (depths.map (· + 1))).1 with h | h
  · exact Or.inl h
  · obtain ⟨depth, hmem, hdepth⟩ := List.mem_map.mp h
    exact Or.inr ⟨depth, hmem, hdepth.symm⟩

/-- The depth of a node, given the finished nodes, latest first: one more than the greatest depth of
its callees finished before it, and 0 if there are none. `none` for a node that is not finished. -/
def depthIn (g : CallGraph) : List String → String → Option Nat
  | [], _ => none
  | x :: done, v =>
    if x = v then some (raised 0 ((g.successors x).filterMap (g.depthIn done)))
    else g.depthIn done v

/-- The depth of the node finished last. -/
theorem depthIn_self (g : CallGraph) (done : List String) (v : String) :
    g.depthIn (v :: done) v = some (raised 0 ((g.successors v).filterMap (g.depthIn done))) := by
  rw [depthIn, if_pos rfl]

/-- The depths of all finished nodes. -/
def depthTable (g : CallGraph) : List String → Depths
  | [] => ∅
  | x :: done =>
    (g.depthTable done).insert x (.ofNat (raised 0 ((g.successors x).filterMap (g.depthIn done))))

theorem getElem?_depthTable (g : CallGraph) (done : List String) (v : String) :
    (g.depthTable done)[v]? = (g.depthIn done v).map Count.ofNat := by
  induction done with
  | nil => rfl
  | cons x done ih =>
      rw [depthTable, depthIn, Std.ExtTreeMap.getElem?_insert, ih]
      simp only [Std.compare_eq_iff_eq]
      split
      · rfl
      · rfl

theorem depthIn_eq_none_iff {g : CallGraph} {done : List String} {v : String} :
    g.depthIn done v = none ↔ v ∉ done := by
  induction done with
  | nil => simp [depthIn]
  | cons x done ih =>
      rw [depthIn, List.mem_cons, not_or]
      split
      · rename_i hx
        simp [hx]
      · rename_i hx
        rw [ih]
        exact ⟨fun h => ⟨Ne.symm hx, h⟩, fun h => h.2⟩

theorem exists_depthIn {g : CallGraph} {done : List String} {v : String} (h : v ∈ done) :
    ∃ depth, g.depthIn done v = some depth :=
  Option.ne_none_iff_exists'.mp fun hnone => depthIn_eq_none_iff.mp hnone h

/-- Nodes finished later do not change the depth of a finished node. -/
theorem depthIn_of_suffix {g : CallGraph} {done done' : List String} {v : String}
    (hs : done <:+ done') (hd : done'.Nodup) (hv : v ∈ done) :
    g.depthIn done' v = g.depthIn done v := by
  obtain ⟨later, rfl⟩ := hs
  induction later with
  | nil => rfl
  | cons x later ih =>
      rw [List.cons_append, List.nodup_cons] at hd
      have hx : x ≠ v := fun heq => hd.1 (heq ▸ List.mem_append_right later hv)
      rw [List.cons_append, depthIn, if_neg hx, ih hd.2]

/-- What an exploration finishes later does not change the depth of a finished node. -/
theorem depthIn_of_explores {g : CallGraph} (hg : g.WellFormed)
    {path pending done done' : List String} {found : List BackCall}
    (h : g.Explores path pending done done' found) (hr : g.Ready path pending done) {v : String}
    (hv : v ∈ done) : g.depthIn done' v = g.depthIn done v :=
  depthIn_of_suffix (explores_suffix h) (explores_ready hg h hr).fresh.of_append_right hv

/-- A depth exceeds those of all callees finished before the node, and one of them by no more than 1
unless it is 0. -/
theorem depthIn_spec {g : CallGraph} {order : List String} (hd : order.Nodup) {v : String}
    {depth : Nat} (h : g.depthIn order v = some depth) :
    (∀ w, g.Calls v w → FinishedBefore order w v →
      ∃ inner, g.depthIn order w = some inner ∧ inner + 1 ≤ depth) ∧
    (depth = 0 ∨ ∃ w inner, g.Calls v w ∧ FinishedBefore order w v ∧
      g.depthIn order w = some inner ∧ depth = inner + 1) := by
  have hv : v ∈ order := by
    by_contra hnot
    rw [depthIn_eq_none_iff.mpr hnot] at h
    cases h
  obtain ⟨later, earlier, rfl⟩ := List.append_of_mem hv
  have hsuffix : v :: earlier <:+ later ++ v :: earlier := List.suffix_append later _
  -- only the nodes finished before `v` count, and their depths have not changed since
  have hbefore : ∀ w, FinishedBefore (later ++ v :: earlier) w v ↔ w ∈ earlier := by
    intro w
    have hnot : v ∉ earlier := (List.nodup_cons.mp hd.of_append_right).1
    rw [finishedBefore_of_suffix hsuffix hd List.mem_cons_self, finishedBefore_cons]
    exact ⟨fun hw => hw.elim (fun h => h.2) fun h => absurd h.mem.1 hnot,
      fun hw => Or.inl ⟨rfl, hw⟩⟩
  have hsame : ∀ w ∈ earlier, g.depthIn (later ++ v :: earlier) w = g.depthIn earlier w :=
    fun w hw => depthIn_of_suffix ((List.suffix_cons v earlier).trans hsuffix) hd hw
  have hdepth : raised 0 ((g.successors v).filterMap (g.depthIn earlier)) = depth := by
    rw [depthIn_of_suffix hsuffix hd List.mem_cons_self, depthIn_self] at h
    exact Option.some.inj h
  constructor
  · intro w hcall hw
    have hmem := (hbefore w).mp hw
    obtain ⟨inner, hinner⟩ := exists_depthIn (g := g) hmem
    refine ⟨inner, by rw [hsame w hmem, hinner], hdepth ▸ succ_le_raised ?_⟩
    exact List.mem_filterMap.mpr ⟨w, mem_successors.mpr hcall, hinner⟩
  · have hattained := raised_eq 0 ((g.successors v).filterMap (g.depthIn earlier))
    rcases hattained with hzero | ⟨inner, hmem, hsucc⟩
    · exact Or.inl (hdepth ▸ hzero)
    · obtain ⟨w, hw, hinner⟩ := List.mem_filterMap.mp hmem
      have hearlier : w ∈ earlier := by
        by_contra hnot
        rw [depthIn_eq_none_iff.mpr hnot] at hinner
        cases hinner
      exact Or.inr ⟨w, inner, mem_successors.mp hw, (hbefore w).mpr hearlier,
        (hsame w hearlier).trans hinner, hdepth ▸ hsucc⟩

end CallGraph

/-! ## Steps of the search -/

namespace DepthSearch

open CallGraph

/-- The search at the end of `path`, with the finished nodes `done`. -/
def state (g : CallGraph) (frames : List OpenNode) (path done : List String) : DepthSearch where
  frames
  visiting := namesOf path
  depths := g.depthTable done

variable {g : CallGraph} {below : List OpenNode} {node next : String}
  {path outer pending done : List String} {best depth : Nat}

theorem extend_ofNat : (OpenNode.mk node pending (.ofNat best)).extend (.ofNat depth) =
    ⟨node, pending, .ofNat (max best (depth + 1))⟩ := by
  simp only [OpenNode.extend, Count.ofNat_succ, Count.max_ofNat]

theorem step_known (hdepth : g.depthIn done next = some depth) :
    (state g (⟨node, next :: pending, .ofNat best⟩ :: below) path done).step g =
      .running (state g (⟨node, pending, .ofNat (max best (depth + 1))⟩ :: below) path done) := by
  simp only [step, state, getElem?_depthTable, hdepth, Option.map_some, extend_ofNat]

theorem step_back (hdone : next ∉ done) (hpath : next ∈ path) :
    (state g (⟨node, next :: pending, .ofNat best⟩ :: below) path done).step g =
      .running (state g (⟨node, pending, .ofNat best⟩ :: below) path done) := by
  simp only [step, state, getElem?_depthTable, depthIn_eq_none_iff.mpr hdone, Option.map_none,
    contains_namesOf, hpath, decide_true, if_true]

theorem step_enter (hdone : next ∉ done) (hpath : next ∉ path) :
    (state g (⟨node, next :: pending, .ofNat best⟩ :: below) path done).step g =
      .running (state g
        (⟨next, g.successors next, .ofNat 0⟩ :: ⟨node, pending, .ofNat best⟩ :: below)
        (next :: path) done) := by
  simp only [step, state, getElem?_depthTable, depthIn_eq_none_iff.mpr hdone, Option.map_none,
    contains_namesOf, hpath, decide_false, Bool.false_eq_true, if_false, insert_namesOf]
  rfl

/-- A frame is left with the depth of its node, which the frame below takes into account. -/
theorem step_leave {parent : OpenNode} (hpath : node ∉ path)
    (hdepth : raised 0 ((g.successors node).filterMap (g.depthIn done)) = depth) :
    (state g (⟨node, [], .ofNat depth⟩ :: parent :: below) (node :: path) done).step g =
      .running (state g (parent.extend (.ofNat depth) :: below) path (node :: done)) := by
  simp only [step, state, erase_namesOf hpath, depthTable, hdepth]

/-- The last frame is left with the depth of the root. -/
theorem step_finish (hdepth : raised 0 ((g.successors node).filterMap (g.depthIn done)) = depth) :
    (state g [⟨node, [], .ofNat depth⟩] [node] done).step g =
      .finished (.ofNat depth) (g.depthTable (node :: done)) := by
  simp only [step, state, depthTable, hdepth]

theorem leads_of_step {s s' : DepthSearch} (h : s.step g = .running s') : Leads (run g) 1 s s' :=
  leads_one fun limit => by rw [run, h]

/-- The search follows an exploration, in as many steps as the search for cycles, and raises the
depth of the innermost node by those of the callees it has looked at. -/
theorem leads_of_explores {done' : List String} {found : List BackCall} (hg : g.WellFormed)
    (h : g.Explores path pending done done' found) (hr : g.Ready path pending done)
    (hpath : path = node :: outer) :
    ∃ n, n + g.effort done = pending.length + g.effort done' ∧
      ∀ below best, Leads (run g) n (state g (⟨node, pending, .ofNat best⟩ :: below) path done)
        (state g (⟨node, [], .ofNat (raised best (pending.filterMap (g.depthIn done')))⟩ :: below)
          path done') := by
  induction h generalizing node outer with
  | nil => exact ⟨0, by simp, fun below best => leads_refl (run g) _⟩
  | @known path pending done done' next found hnext hrest ih =>
      have hskip := hr.skip (Or.inl hnext)
      obtain ⟨n, hn, hleads⟩ := ih hskip hpath
      refine ⟨1 + n, by simp only [List.length_cons]; omega, ?_⟩
      intro below best
      obtain ⟨depth, hdepth⟩ := exists_depthIn (g := g) hnext
      -- the depth that the search finds in the table is the one that is there at the end
      have hdepth' : g.depthIn done' next = some depth :=
        (depthIn_of_explores hg hrest hskip hnext).trans hdepth
      rw [List.filterMap_cons_some hdepth', raised_cons]
      exact (leads_of_step (step_known hdepth)).trans (hleads below _)
  | @back outer' pending done done' caller next found hnext hrest ih =>
      have hskip := hr.skip (Or.inr hnext)
      obtain ⟨n, hn, hleads⟩ := ih hskip hpath
      refine ⟨1 + n, by simp only [List.length_cons]; omega, ?_⟩
      intro below best
      -- a node of the path is not finished by the end either, so it never counts
      have hopen : g.depthIn done' next = none :=
        depthIn_eq_none_iff.mpr ((explores_ready hg hrest hskip).notMem_done hnext)
      rw [List.filterMap_cons_none hopen]
      exact (leads_of_step (step_back (hr.notMem_done hnext) hnext)).trans (hleads below best)
  | @enter path pending done between done' next inner found hdone hnot hin hrest ihin ihout =>
      have henter := hr.enter hg hdone hnot
      have hresume := hr.resume hg hdone hnot hin
      obtain ⟨m, hm, hinner⟩ := ihin henter rfl
      obtain ⟨n, hn, houter⟩ := ihout hresume hpath
      rw [effort_cons] at hn
      refine ⟨1 + m + 1 + n, by simp only [List.length_cons]; omega, ?_⟩
      intro below best
      obtain ⟨depth, hdepth⟩ : ∃ depth, raised 0 ((g.successors next).filterMap
          (g.depthIn between)) = depth := ⟨_, rfl⟩
      have hdepth' : g.depthIn done' next = some depth := by
        rw [depthIn_of_explores hg hrest hresume List.mem_cons_self, depthIn_self, hdepth]
      have hthrough := (leads_of_step (step_enter hdone hnot)).trans
        (hinner (⟨node, pending, .ofNat best⟩ :: below) 0)
      rw [hdepth] at hthrough
      have hback : Leads (run g) 1
          (state g (⟨next, [], .ofNat depth⟩ :: ⟨node, pending, .ofNat best⟩ :: below)
            (next :: path) between)
          (state g (⟨node, pending, .ofNat (max best (depth + 1))⟩ :: below) path
            (next :: between)) := by
        rw [← extend_ofNat]
        exact leads_of_step (step_leave hnot hdepth)
      rw [List.filterMap_cons_some hdepth', raised_cons]
      exact (hthrough.trans hback).trans (houter below _)

end DepthSearch

/-! ## All roots -/

namespace CallGraph

/-- The depth of a finished root is known already. -/
theorem depthOf_known {g : CallGraph} {done : List String} {root : String} {depth : Nat}
    (h : g.depthIn done root = some depth) :
    g.depthOf root (g.depthTable done) = (.ofNat depth, g.depthTable done) := by
  simp only [depthOf, getElem?_depthTable, h, Option.map_some]

/-- From a new root the search finishes what an exploration from there finishes. -/
theorem depthOf_enter {g : CallGraph} (hg : g.WellFormed) {done between : List String}
    {root : String} {inner : List BackCall} {depth : Nat} (hroot : root ∉ done)
    (h : g.Explores [root] (g.successors root) done between inner)
    (hr : g.Ready [root] (g.successors root) done)
    (hdepth : g.depthIn (root :: between) root = some depth) :
    g.depthOf root (g.depthTable done) = (.ofNat depth, g.depthTable (root :: between)) := by
  rw [depthIn_self, Option.some.injEq] at hdepth
  obtain ⟨n, hn, hleads⟩ := DepthSearch.leads_of_explores hg h hr rfl
  obtain ⟨spare, hspare⟩ : ∃ spare, g.stepLimit = n + (spare + 1) := by
    have hlimit := lt_stepLimit_of_explores hg h hr hn
    exact ⟨g.stepLimit - (n + 1), by omega⟩
  have hstart : DepthSearch.start g root (g.depthTable done) =
      DepthSearch.state g [⟨root, g.successors root, .ofNat 0⟩] [root] done := by
    simp only [DepthSearch.start, DepthSearch.state]
    rfl
  -- at least one step remains to leave the last frame
  have hfinish : (DepthSearch.state g [⟨root, [], .ofNat depth⟩] [root] between).run g (spare + 1) =
      (.ofNat depth, g.depthTable (root :: between)) := by
    rw [DepthSearch.run, DepthSearch.step_finish hdepth]
  have hrun := hleads [] 0 (spare + 1)
  rw [hdepth, hfinish] at hrun
  rw [depthOf, getElem?_depthTable, depthIn_eq_none_iff.mpr hroot, hspare, hstart]
  exact hrun

/-- The greatest depth so far and the depths known, after one more root. -/
def visitRoot (g : CallGraph) (found : Count × Depths) (root : String) : Count × Depths :=
  (max found.1 (g.depthOf root found.2).1, (g.depthOf root found.2).2)

theorem maxDepth_eq_foldl (g : CallGraph) (depths : Depths) :
    g.maxDepth depths = g.nodes.keys.foldl g.visitRoot (0, depths) := rfl

theorem visitRoot_eq {g : CallGraph} {depths depths' : Depths} {root : String} {depth : Nat}
    (h : g.depthOf root depths = (.ofNat depth, depths')) (greatest : Nat) :
    g.visitRoot (.ofNat greatest, depths) root = (.ofNat (max greatest depth), depths') := by
  simp only [visitRoot, h, Count.max_ofNat]

/-- The search over all roots follows an exploration with an empty path. -/
theorem foldl_visitRoot {g : CallGraph} (hg : g.WellFormed) {pending done done' : List String}
    {found : List BackCall} (h : g.Explores [] pending done done' found)
    (hr : g.Ready [] pending done) (greatest : Nat) :
    pending.foldl g.visitRoot (.ofNat greatest, g.depthTable done) =
      (.ofNat ((pending.filterMap (g.depthIn done')).foldl max greatest), g.depthTable done') := by
  generalize hpath : ([] : List String) = path at h hr
  induction h generalizing greatest with
  | nil => rfl
  | @known path pending done done' next found hnext hrest ih =>
      have hskip := hr.skip (Or.inl hnext)
      obtain ⟨depth, hdepth⟩ := exists_depthIn (g := g) hnext
      have hdepth' : g.depthIn done' next = some depth :=
        (depthIn_of_explores hg hrest hskip hnext).trans hdepth
      rw [List.foldl_cons, visitRoot_eq (depthOf_known hdepth), List.filterMap_cons_some hdepth',
        List.foldl_cons]
      exact ih _ hpath hskip
  | back => cases hpath
  | @enter path pending done between done' next inner found hdone hnot hin hrest _ ihout =>
      have henter := hr.enter hg hdone hnot
      have hresume := hr.resume hg hdone hnot hin
      have hmem : next ∈ next :: between := List.mem_cons_self
      obtain ⟨depth, hdepth⟩ := exists_depthIn (g := g) hmem
      have hdepth' : g.depthIn done' next = some depth :=
        (depthIn_of_explores hg hrest hresume hmem).trans hdepth
      subst hpath
      rw [List.foldl_cons, visitRoot_eq (depthOf_enter hg hdone hin henter hdepth),
        List.filterMap_cons_some hdepth', List.foldl_cons]
      exact ihout _ rfl hresume

/-- The greatest of the depths that a traversal leaves, 0 without nodes. -/
def greatestDepth (g : CallGraph) (order : List String) : Nat :=
  (g.nodes.keys.filterMap (g.depthIn order)).foldl max 0

/-- What the first search returns and remembers. -/
theorem maxDepth_eq {g : CallGraph} (hg : g.WellFormed) {order : List String}
    {found : List BackCall} (h : g.Traversal order found) :
    g.maxDepth ∅ = (.ofNat (g.greatestDepth order), g.depthTable order) := by
  rw [maxDepth_eq_foldl]
  exact foldl_visitRoot hg h.explores (ready_start g) 0

/-- When all depths are known, searching again changes nothing. -/
theorem maxDepth_depthTable {g : CallGraph} (hg : g.WellFormed) {order : List String}
    {found : List BackCall} (h : g.Traversal order found) :
    g.maxDepth (g.depthTable order) = (.ofNat (g.greatestDepth order), g.depthTable order) := by
  have hend := explores_ready hg h.explores (ready_start g)
  -- the second search looks at all roots again, with every node finished
  have hready : g.Ready [] g.nodes.keys order := { hend with looked := ⟨[], rfl, by simp⟩ }
  have hknown : g.Explores [] g.nodes.keys order order [] :=
    explores_known fun v hv => (h.mem_order v).mpr (mem_nodes.mp hv)
  rw [maxDepth_eq_foldl]
  exact foldl_visitRoot hg hknown hready 0

end CallGraph

end RiskGate

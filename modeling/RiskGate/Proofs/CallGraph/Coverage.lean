import RiskGate.Proofs.CallGraph.Loops
import RiskGate.Proofs.CallGraph.DepthSearch
import RiskGate.Proofs.CallGraph.Cycles

/-! # Both searches end and cover the graph

From any node, and whatever is known before, the search for depths and the search for cycles come
to the end of their loops, well within the limit on their steps. Over all nodes each search enters
every node exactly once.

* `DepthSearch.next_cases`, `CycleSearch.step_cases`: what one round does;
* `DepthSearch.exists_finishes`: the search for a depth ends by leaving the frame of its root;
* `CycleSearch.exists_finishes`: the search for cycles ends with the path and the set of its nodes
  in step all the way;
* `searches_end_and_cover`: both over all nodes of a constructed graph.
-/

namespace RiskGate

open CallGraph

/-! ## The search for depths -/

namespace DepthSearch

variable {g : CallGraph} {root : String} {depths depths' : Depths} {s s' : DepthSearch}

/-- The search at the next head of its loop, unless this is the last round. -/
def next (g : CallGraph) (s : DepthSearch) : Option DepthSearch :=
  match s.step g with
  | .running s' => some s'
  | .finished _ _ => none
  | .idle _ => none

/-- The nodes of the frames, and those that are being visited or have a depth. -/
def view (s : DepthSearch) : View where
  stack := s.frames.map (·.node)
  seen := {v | v ∈ s.visiting ∨ v ∈ s.depths}
  rounds := (s.frames.map fun frame => frame.pending.length + 1).sum

/-- What a round that is not the last does: it passes over a successor, enters one, or leaves the
innermost frame for the one below. -/
theorem next_cases (h : s.next g = some s') :
    (∃ node v pending best best' outer, s.frames = ⟨node, v :: pending, best⟩ :: outer ∧
      (v ∈ s.visiting ∨ v ∈ s.depths) ∧
      s' = { s with frames := ⟨node, pending, best'⟩ :: outer }) ∨
    (∃ node v pending best outer, s.frames = ⟨node, v :: pending, best⟩ :: outer ∧
      v ∉ s.visiting ∧ v ∉ s.depths ∧
      s' = { s with
        frames := .start g v :: ⟨node, pending, best⟩ :: outer
        visiting := s.visiting.insert v }) ∨
    ∃ node best parent outer, s.frames = ⟨node, [], best⟩ :: parent :: outer ∧
      s' = {
        frames := parent.extend best :: outer
        visiting := s.visiting.erase node
        depths := s.depths.insert node best } := by
  rcases s with ⟨frames, visiting, depths⟩
  rcases frames with _ | ⟨⟨node, _ | ⟨v, pending⟩, best⟩, outer⟩
  · cases h
  · rcases outer with _ | ⟨parent, outer⟩
    · cases h
    · exact .inr (.inr ⟨node, best, parent, outer, rfl, (Option.some.inj h).symm⟩)
  · simp only [next, step] at h
    cases hdepth : depths[v]? with
    | some depth =>
        simp only [hdepth, Option.some.injEq] at h
        have hknown : v ∈ depths := by
          rw [Std.ExtTreeMap.mem_iff_isSome_getElem?, hdepth]
          rfl
        exact .inl ⟨node, v, pending, best, _, outer, rfl, Or.inr hknown, h.symm⟩
    | none =>
        by_cases hvisiting : v ∈ visiting
        · simp only [hdepth, Std.ExtTreeSet.contains_iff_mem.mpr hvisiting, if_true,
            Option.some.injEq] at h
          exact .inl ⟨node, v, pending, best, best, outer, rfl, Or.inl hvisiting, h.symm⟩
        · have hnew : v ∉ depths := by
            rw [Std.ExtTreeMap.mem_iff_isSome_getElem?, hdepth]
            exact Bool.false_ne_true
          simp only [hdepth, Std.ExtTreeSet.contains_iff_mem, hvisiting, if_false,
            Option.some.injEq] at h
          exact .inr (.inl ⟨node, v, pending, best, outer, rfl, hvisiting, hnew, h.symm⟩)

/-- The frames are those of a path that began at `root`, and its nodes are being visited. -/
structure Rooted (g : CallGraph) (root : String) (s : DepthSearch) : Prop where
  outermost : (s.frames.map (·.node)).getLast? = some root
  distinct : (s.frames.map (·.node)).Nodup
  visiting : s.visiting = namesOf (s.frames.map (·.node))
  pending : ∀ frame ∈ s.frames, ∀ v ∈ frame.pending, g.contains v = true

theorem rooted_start (hg : g.WellFormed) (root : String) (depths : Depths) :
    (start g root depths).Rooted g root where
  outermost := rfl
  distinct := List.nodup_singleton root
  visiting := insert_namesOf [] root
  pending := by
    intro frame hframe v hv
    obtain rfl := List.mem_singleton.mp hframe
    exact hg.callee (mem_successors.mp hv)

theorem Rooted.mem_visiting (hs : s.Rooted g root) {frame : OpenNode} (h : frame ∈ s.frames) :
    frame.node ∈ s.visiting := by
  rw [hs.visiting, mem_namesOf]
  exact List.mem_map_of_mem h

section

variable {node v : String} {pending : List String} {best best' : Count} {parent : OpenNode}
  {outer : List OpenNode} {visiting : Names}

theorem Rooted.pass (hs : Rooted g root ⟨⟨node, v :: pending, best⟩ :: outer, visiting, depths⟩) :
    Rooted g root ⟨⟨node, pending, best'⟩ :: outer, visiting, depths⟩ := by
  obtain ⟨hinner, houter⟩ := List.forall_mem_cons.mp hs.pending
  have hrest := (List.forall_mem_cons.mp hinner).2
  exact ⟨hs.outermost, hs.distinct, hs.visiting, List.forall_mem_cons.mpr ⟨hrest, houter⟩⟩

theorem Rooted.enter (hg : g.WellFormed)
    (hs : Rooted g root ⟨⟨node, v :: pending, best⟩ :: outer, visiting, depths⟩)
    (hnew : v ∉ visiting) :
    Rooted g root
      ⟨.start g v :: ⟨node, pending, best⟩ :: outer, visiting.insert v, depths⟩ := by
  have hvisiting : visiting = namesOf (node :: outer.map (·.node)) := hs.visiting
  have hfresh : v ∉ node :: outer.map (·.node) := fun hv =>
    hnew (hvisiting ▸ mem_namesOf.mpr hv)
  have hcallees : ∀ w ∈ g.successors v, g.contains w = true :=
    fun w hw => hg.callee (mem_successors.mp hw)
  refine ⟨hs.outermost, List.nodup_cons.mpr ⟨hfresh, hs.distinct⟩, ?_,
    List.forall_mem_cons.mpr ⟨hcallees, hs.pass.pending⟩⟩
  rw [hvisiting]
  exact insert_namesOf _ v

theorem Rooted.leave
    (hs : Rooted g root ⟨⟨node, [], best⟩ :: parent :: outer, visiting, depths⟩) :
    Rooted g root
      ⟨parent.extend best :: outer, visiting.erase node, depths.insert node best⟩ := by
  have hvisiting : visiting = namesOf (node :: (parent :: outer).map (·.node)) := hs.visiting
  obtain ⟨hnode, hdistinct⟩ := List.nodup_cons.mp hs.distinct
  have houter := List.forall_mem_cons.mp (List.forall_mem_cons.mp hs.pending).2
  refine ⟨hs.outermost, hdistinct, ?_, List.forall_mem_cons.mpr houter⟩
  rw [hvisiting]
  exact erase_namesOf hnode

end

/-- Every round but the last is a move that keeps the frames those of a path. -/
theorem movesBy_next (hg : g.WellFormed) (root : String) :
    MovesBy g (next g) view (Rooted g root) := by
  rintro ⟨frames, visiting, depths⟩ s' hs hnext
  rcases next_cases hnext with ⟨node, v, pending, best, best', outer, hframes, -, rfl⟩ |
    ⟨node, v, pending, best, outer, hframes, hvisiting, hnew, rfl⟩ |
    ⟨node, best, parent, outer, hframes, rfl⟩
  · obtain rfl : frames = _ := hframes
    refine ⟨hs.pass, .pass rfl rfl ?_⟩
    simp only [view, List.map_cons, List.sum_cons, List.length_cons]
    omega
  · obtain rfl : frames = _ := hframes
    have hnode : g.contains v = true := hs.pending _ List.mem_cons_self v List.mem_cons_self
    refine ⟨hs.enter hg hvisiting, .enter v hnode (fun hv => hv.elim hvisiting hnew) rfl ?_ ?_⟩
    · ext w
      simp only [view, Set.mem_ofPred_eq, Set.mem_insert_iff, Std.ExtTreeSet.mem_insert,
        Std.compare_eq_iff_eq, eq_comm (a := v)]
      tauto
    · simp only [view, OpenNode.start, List.map_cons, List.sum_cons, List.length_cons]
      omega
  · obtain rfl : frames = _ := hframes
    have hvisiting : node ∈ visiting := hs.mem_visiting List.mem_cons_self
    refine ⟨hs.leave, .leave node rfl ?_ ?_⟩
    · -- the node is not being visited any more, but has a depth
      ext w
      simp only [view, Set.mem_ofPred_eq, Std.ExtTreeSet.mem_erase, Std.ExtTreeMap.mem_insert,
        Std.compare_eq_iff_eq, ne_eq]
      by_cases hw : node = w
      · simp [← hw, hvisiting]
      · simp [hw]
    · simp only [view, OpenNode.extend, List.map_cons, List.sum_cons, List.length_nil]
      omega

/-- The frame of the root is left with the depth of the root. -/
theorem step_eq_finished {depth : Count} (h : s.frames = [⟨root, [], depth⟩]) :
    s.step g = .finished depth (s.depths.insert root depth) := by
  rw [step, h]

/-- In the last round there is no frame but that of the root, with nothing left to look at. -/
theorem Rooted.frames_eq (hs : s.Rooted g root) (h : s.next g = none) :
    ∃ depth, s.frames = [⟨root, [], depth⟩] := by
  rcases s with ⟨frames, visiting, depths⟩
  rcases frames with _ | ⟨⟨node, _ | ⟨v, pending⟩, best⟩, outer⟩
  · cases hs.outermost
  · rcases outer with _ | ⟨parent, outer⟩
    · obtain rfl : node = root := Option.some.inj hs.outermost
      exact ⟨best, rfl⟩
    · cases h
  · simp only [next, step] at h
    cases hdepth : depths[v]? with
    | some depth => simp [hdepth] at h
    | none => cases hvisiting : visiting.contains v <;> simp [hdepth, hvisiting] at h

/-- With enough steps the search returns what its last round gives. -/
theorem run_of_loop {heads : List DepthSearch} {last : DepthSearch} {depth : Count} {limit : Nat}
    (h : Loop (next g) s heads last) (hlast : last.step g = .finished depth depths')
    (hlimit : heads.length ≤ limit) : s.run g limit = (depth, depths') := by
  induction h generalizing limit with
  | ended =>
      obtain ⟨limit, rfl⟩ := Nat.exists_eq_add_of_le' hlimit
      simp only [List.length_singleton, run, hlast]
  | @again s s' last heads hnext _ ih =>
      obtain ⟨limit, rfl⟩ := Nat.exists_eq_add_of_le' hlimit
      have hstep : s.step g = .running s' := by
        unfold next at hnext
        split at hnext
        · rename_i hrunning
          rw [hrunning, Option.some.inj hnext]
        · cases hnext
        · cases hnext
      rw [List.length_cons, ← Nat.add_assoc, run, hstep]
      exact ih hlast (Nat.le_add_left _ _)

/-- The search for the depth of `root` comes to its end: `heads` are the states at the head of its
loop, and the last round leaves the frame of `root`. -/
structure Finishes (g : CallGraph) (depths : Depths) (root : String) (heads : List DepthSearch)
    (depth : Count) (depths' : Depths) : Prop where
  loop : ∃ last, Loop (next g) (start g root depths) heads last ∧
    last.frames = [⟨root, [], depth⟩] ∧ last.step g = .finished depth depths'
  moves : heads.IsChain fun s s' => Move g s.view s'.view
  /-- The limit on the steps does not cut the search off. -/
  run : (start g root depths).run g g.stepLimit = (depth, depths')

theorem exists_finishes (hg : g.WellFormed) (hroot : g.contains root = true) (depths : Depths) :
    ∃ heads depth depths', Finishes g depths root heads depth depths' := by
  have hmoves := movesBy_next hg root
  have hstart := rooted_start hg root depths
  obtain ⟨heads, last, hloop⟩ := hmoves.exists_loop hstart
  have hlast := hmoves.invariant hloop hstart last hloop.last_mem
  obtain ⟨depth, hframes⟩ := hlast.frames_eq hloop.next_last
  have hfinished := step_eq_finished (g := g) hframes
  refine ⟨heads, depth, _, ⟨last, hloop, hframes, hfinished⟩, hmoves.isChain hloop hstart,
    run_of_loop hloop hfinished ?_⟩
  have hrounds := hmoves.length_add_remaining hloop hstart
  have hlimit : (start g root depths).view.remaining g < g.stepLimit :=
    View.remaining_lt_stepLimit hroot (Or.inl Std.ExtTreeSet.mem_insert_self) rfl
  -- the round that leaves the last frame remains at the end
  have hleave : 0 < last.view.remaining g := by
    simp [View.remaining, view, hframes]
  omega

/-- A search from a new root enters nodes without a depth, each once, and afterwards these are the
nodes that have got one. -/
theorem Finishes.enters (hg : g.WellFormed) (hroot : g.contains root = true) (hnew : root ∉ depths)
    {heads : List DepthSearch} {depth : Count} (h : Finishes g depths root heads depth depths') :
    Enters g {v | v ∈ depths} (pushes (next g) view root heads) {v | v ∈ depths'} := by
  obtain ⟨last, hloop, hframes, hfinished⟩ := h.loop
  have hmoves := movesBy_next hg root
  have hstart := rooted_start hg root depths
  have hvisiting : last.visiting = namesOf [root] := by
    rw [(hmoves.invariant hloop hstart last hloop.last_mem).visiting, hframes]
    rfl
  have hdepths : depths' = last.depths.insert root depth := by
    rw [step_eq_finished hframes] at hfinished
    exact (DepthProgress.finished.inj hfinished).2.symm
  have hseen : (start g root depths).view.seen = insert root {v | v ∈ depths} := by
    ext v
    simp [view, start, eq_comm (a := v)]
  have hseen' : last.view.seen = {v | v ∈ depths'} := by
    ext v
    simp [view, hvisiting, hdepths, eq_comm (a := v)]
  have henters := hmoves.enters hloop hstart
  rw [hseen, hseen'] at henters
  exact henters.cons hroot hnew

/-- A search for the depth of a root, by the nodes that it enters and the depths that it leaves. -/
def Visits (g : CallGraph) (depths : Depths) (root : String) (nodes : List String)
    (depths' : Depths) : Prop :=
  ∃ heads depth, Finishes g depths root heads depth depths' ∧
    nodes = pushes (next g) view root heads

/-- The depths that are left by searching from all nodes, one after another. -/
theorem snd_maxDepth (g : CallGraph) (depths : Depths) : (g.maxDepth depths).2 =
    g.nodes.keys.foldl (fun depths root => (g.depthOf root depths).2) depths := by
  rw [maxDepth_eq_foldl]
  exact (List.foldl_hom Prod.snd fun _ _ => rfl).symm

theorem depthOf_of_mem (h : root ∈ depths) : (g.depthOf root depths).2 = depths := by
  obtain ⟨depth, hdepth⟩ := Option.isSome_iff_exists.mp
    (Std.ExtTreeMap.mem_iff_isSome_getElem?.mp h)
  rw [depthOf, hdepth]

theorem Visits.depthOf_eq {nodes : List String} (hnew : root ∉ depths)
    (h : Visits g depths root nodes depths') : (g.depthOf root depths).2 = depths' := by
  obtain ⟨heads, depth, hfinishes, -⟩ := h
  have hnone : depths[root]? = none := by
    rwa [← Option.not_isSome_iff_eq_none, ← Std.ExtTreeMap.mem_iff_isSome_getElem?]
  rw [depthOf, hnone]
  exact congrArg Prod.snd hfinishes.run

/-- The searches for the depths of all nodes, one after another. -/
theorem exists_sweep (hg : g.WellFormed) (depths : Depths) :
    ∃ nodes, Sweep (fun depths => {v | v ∈ depths}) (Visits g) depths g.nodes.keys nodes
      (g.maxDepth depths).2 := by
  have hsearch : ∀ root ∈ g.nodes.keys, ∀ depths : Depths, root ∉ {v | v ∈ depths} →
      ∃ nodes depths', Visits g depths root nodes depths' := by
    intro root hroot depths _
    obtain ⟨heads, depth, depths', h⟩ := exists_finishes hg (mem_nodes.mp hroot) depths
    exact ⟨_, depths', heads, depth, h, rfl⟩
  obtain ⟨nodes, depths', hsweep⟩ := CallGraph.exists_sweep hsearch depths
  have hleft : (g.maxDepth depths).2 = depths' := by
    rw [snd_maxDepth]
    exact hsweep.foldl_eq (fun _ _ => depthOf_of_mem) fun _ _ _ _ => Visits.depthOf_eq
  exact ⟨nodes, hleft ▸ hsweep⟩

/-- A search from a new root enters the root and whatever has a depth afterwards but not before. -/
theorem Visits.enters (hg : g.WellFormed) {nodes : List String} (hroot : g.contains root = true)
    (hnew : root ∉ depths) (h : Visits g depths root nodes depths') :
    root ∈ nodes ∧ Enters g {v | v ∈ depths} nodes {v | v ∈ depths'} := by
  obtain ⟨heads, depth, hfinishes, rfl⟩ := h
  exact ⟨List.mem_cons_self, hfinishes.enters hg hroot hnew⟩

end DepthSearch

/-! ## The search for cycles -/

namespace CycleSearch

variable {g : CallGraph} {root : String} {found : Names × List (List String)} {s s' : CycleSearch}

/-- The path and the nodes visited. -/
def view (s : CycleSearch) : View where
  stack := s.path
  seen := {v | v ∈ s.visited}
  rounds := (s.frames.map fun pending => pending.length + 1).sum

/-- What holds at the head of the loop: the frames are those of the nodes on the path, which are all
visited. -/
structure Aligned (g : CallGraph) (s : CycleSearch) : Prop where
  length : s.frames.length = s.path.length
  onPath : s.onPath = namesOf s.path
  distinct : s.path.Nodup
  visited : ∀ v ∈ s.path, v ∈ s.visited
  pending : ∀ pending ∈ s.frames, ∀ v ∈ pending, g.contains v = true

/-- What a round does: it passes over a successor, enters one, or leaves the innermost node. -/
theorem step_cases (hs : s.Aligned g) (h : s.step g = some s') :
    (∃ v pending frames cycles, s.frames = (v :: pending) :: frames ∧ v ∈ s.visited ∧
      s' = { s with frames := pending :: frames, cycles }) ∨
    (∃ v pending frames, s.frames = (v :: pending) :: frames ∧ v ∉ s.visited ∧
      s' = { s with
        frames := g.successors v :: pending :: frames
        path := v :: s.path
        onPath := s.onPath.insert v
        visited := s.visited.insert v }) ∨
    ∃ u path frames, s.frames = [] :: frames ∧ s.path = u :: path ∧
      s' = { s with frames, path, onPath := s.onPath.erase u } := by
  rcases s with ⟨frames, path, onPath, visited, cycles⟩
  rcases frames with _ | ⟨_ | ⟨v, pending⟩, frames⟩
  · cases h
  · rcases path with _ | ⟨u, path⟩
    · exact absurd hs.length (Nat.succ_ne_zero _)
    · exact .inr (.inr ⟨u, path, frames, rfl, rfl, (Option.some.inj h).symm⟩)
  · by_cases hvisited : v ∈ visited
    · -- a node that was visited is passed over, whether or not it closes a cycle
      left
      simp only [step, Std.ExtTreeSet.contains_iff_mem.mpr hvisited, Bool.not_true,
        Bool.false_eq_true, if_false] at h
      split at h
      · split at h
        · exact ⟨v, pending, frames, _, rfl, hvisited, (Option.some.inj h).symm⟩
        · exact ⟨v, pending, frames, cycles, rfl, hvisited, (Option.some.inj h).symm⟩
      · exact ⟨v, pending, frames, cycles, rfl, hvisited, (Option.some.inj h).symm⟩
    · have hnew : visited.contains v = false :=
        Bool.eq_false_iff.mpr fun hv => hvisited (Std.ExtTreeSet.contains_iff_mem.mp hv)
      simp only [step, hnew, Bool.not_false, if_true] at h
      exact .inr (.inl ⟨v, pending, frames, rfl, hvisited, (Option.some.inj h).symm⟩)

theorem aligned_start (hg : g.WellFormed) (root : String) (found : Names × List (List String)) :
    (start g root found.1 found.2).Aligned g where
  length := rfl
  onPath := insert_namesOf [] root
  distinct := List.nodup_singleton root
  visited := by
    intro v hv
    rw [List.mem_singleton.mp hv]
    exact Std.ExtTreeSet.mem_insert_self
  pending := by
    intro pending hpending v hv
    obtain rfl := List.mem_singleton.mp hpending
    exact hg.callee (mem_successors.mp hv)

section

variable {u v : String} {pending path : List String} {frames : List (List String)}
  {onPath visited : Names} {cycles cycles' : List (List String)}

theorem Aligned.pass (hs : Aligned g ⟨(v :: pending) :: frames, path, onPath, visited, cycles⟩) :
    Aligned g ⟨pending :: frames, path, onPath, visited, cycles'⟩ := by
  obtain ⟨hinner, houter⟩ := List.forall_mem_cons.mp hs.pending
  have hrest := (List.forall_mem_cons.mp hinner).2
  exact ⟨hs.length, hs.onPath, hs.distinct, hs.visited, List.forall_mem_cons.mpr ⟨hrest, houter⟩⟩

theorem Aligned.enter (hg : g.WellFormed)
    (hs : Aligned g ⟨(v :: pending) :: frames, path, onPath, visited, cycles⟩)
    (hnew : v ∉ visited) :
    Aligned g ⟨g.successors v :: pending :: frames, v :: path, onPath.insert v,
      visited.insert v, cycles⟩ := by
  have honPath : onPath = namesOf path := hs.onPath
  have hfresh : v ∉ path := fun hv => hnew (hs.visited v hv)
  have hcallees : ∀ w ∈ g.successors v, g.contains w = true :=
    fun w hw => hg.callee (mem_successors.mp hw)
  have hpass : Aligned g ⟨pending :: frames, path, onPath, visited, cycles⟩ := hs.pass
  refine ⟨congrArg (· + 1) hs.length, ?_, List.nodup_cons.mpr ⟨hfresh, hs.distinct⟩, ?_,
    List.forall_mem_cons.mpr ⟨hcallees, hpass.pending⟩⟩
  · rw [honPath]
    exact insert_namesOf path v
  · refine List.forall_mem_cons.mpr ⟨Std.ExtTreeSet.mem_insert_self, fun w hw => ?_⟩
    exact Std.ExtTreeSet.mem_insert.mpr (Or.inr (hs.visited w hw))

theorem Aligned.leave (hs : Aligned g ⟨[] :: frames, u :: path, onPath, visited, cycles⟩) :
    Aligned g ⟨frames, path, onPath.erase u, visited, cycles⟩ := by
  have honPath : onPath = namesOf (u :: path) := hs.onPath
  obtain ⟨hu, hdistinct⟩ := List.nodup_cons.mp hs.distinct
  refine ⟨Nat.succ.inj hs.length, ?_, hdistinct, (List.forall_mem_cons.mp hs.visited).2,
    (List.forall_mem_cons.mp hs.pending).2⟩
  rw [honPath]
  exact erase_namesOf hu

end

/-- Every round is a move that keeps frames, path and visited nodes aligned. -/
theorem movesBy_step (hg : g.WellFormed) : MovesBy g (step g) view (Aligned g) := by
  intro s s' hs hnext
  have hcases := step_cases hs hnext
  rcases s with ⟨frames, path, onPath, visited, cycles⟩
  rcases hcases with ⟨v, pending, outer, cycles, hframes, -, rfl⟩ |
    ⟨v, pending, outer, hframes, hnew, rfl⟩ | ⟨u, rest, outer, hframes, hpath, rfl⟩
  · obtain rfl : frames = _ := hframes
    refine ⟨hs.pass, .pass rfl rfl ?_⟩
    simp only [view, List.map_cons, List.sum_cons, List.length_cons]
    omega
  · obtain rfl : frames = _ := hframes
    have hnode : g.contains v = true := hs.pending _ List.mem_cons_self v List.mem_cons_self
    refine ⟨hs.enter hg hnew, .enter v hnode hnew rfl ?_ ?_⟩
    · ext w
      simp [view, eq_comm (a := v)]
    · simp only [view, List.map_cons, List.sum_cons, List.length_cons]
      omega
  · obtain rfl : frames = _ := hframes
    obtain rfl : path = _ := hpath
    refine ⟨hs.leave, .leave u rfl rfl ?_⟩
    simp only [view, List.map_cons, List.sum_cons, List.length_nil]
    omega

/-- With enough steps the search comes to the end of its loop. -/
theorem run_of_loop {heads : List CycleSearch} {last : CycleSearch} {limit : Nat}
    (h : Loop (step g) s heads last) (hlimit : heads.length ≤ limit) : s.run g limit = last := by
  induction h generalizing limit with
  | ended hnone =>
      obtain ⟨limit, rfl⟩ := Nat.exists_eq_add_of_le' hlimit
      simp only [List.length_singleton, run, hnone]
  | again hnext _ ih =>
      obtain ⟨limit, rfl⟩ := Nat.exists_eq_add_of_le' hlimit
      rw [List.length_cons, ← Nat.add_assoc, run, hnext]
      exact ih (Nat.le_add_left _ _)

/-- The search from `root` comes to its end: `heads` are the states at the head of its loop, where
there is one frame for each node of the path, and the set of nodes on the path is right. -/
structure Finishes (g : CallGraph) (found : Names × List (List String)) (root : String)
    (heads : List CycleSearch) (last : CycleSearch) : Prop where
  loop : Loop (step g) (start g root found.1 found.2) heads last
  moves : heads.IsChain fun s s' => Move g s.view s'.view
  length : ∀ s ∈ heads, s.frames.length = s.path.length
  onPath : ∀ s ∈ heads, ∀ v, v ∈ s.onPath ↔ v ∈ s.path
  /-- The limit on the steps does not cut the search off. -/
  run : (start g root found.1 found.2).run g g.stepLimit = last

theorem exists_finishes (hg : g.WellFormed) (hroot : g.contains root = true)
    (found : Names × List (List String)) : ∃ heads last, Finishes g found root heads last := by
  have hmoves := movesBy_step hg
  have hstart := aligned_start hg root found
  obtain ⟨heads, last, hloop⟩ := hmoves.exists_loop hstart
  have haligned := hmoves.invariant hloop hstart
  refine ⟨heads, last, hloop, hmoves.isChain hloop hstart, fun s hs => (haligned s hs).length, ?_,
    run_of_loop hloop ?_⟩
  · intro s hs v
    rw [(haligned s hs).onPath, mem_namesOf]
  · have hrounds := hmoves.length_add_remaining hloop hstart
    have hlimit : (start g root found.1 found.2).view.remaining g < g.stepLimit :=
      View.remaining_lt_stepLimit hroot Std.ExtTreeSet.mem_insert_self rfl
    omega

/-- A search from a root that was not visited visits new nodes, each once. -/
theorem Finishes.enters (hg : g.WellFormed) (hroot : g.contains root = true)
    (hnew : root ∉ found.1) {heads : List CycleSearch} {last : CycleSearch}
    (h : Finishes g found root heads last) :
    Enters g {v | v ∈ found.1} (pushes (step g) view root heads) {v | v ∈ last.visited} := by
  have hseen : (start g root found.1 found.2).view.seen = insert root {v | v ∈ found.1} := by
    ext v
    simp [view, start, eq_comm (a := v)]
  have henters := (movesBy_step hg).enters h.loop (aligned_start hg root found)
  rw [hseen] at henters
  exact henters.cons hroot hnew

/-- A search from a root, by the nodes that it enters and what it leaves. -/
def Visits (g : CallGraph) (found : Names × List (List String)) (root : String)
    (nodes : List String) (found' : Names × List (List String)) : Prop :=
  ∃ heads last, Finishes g found root heads last ∧ nodes = pushes (step g) view root heads ∧
    found' = (last.visited, last.cycles)

theorem cyclesFrom_of_mem (h : root ∈ found.1) : g.cyclesFrom found root = found := by
  simp [cyclesFrom, h]

theorem Visits.cyclesFrom_eq {found' : Names × List (List String)} {nodes : List String}
    (hnew : root ∉ found.1) (h : Visits g found root nodes found') :
    g.cyclesFrom found root = found' := by
  obtain ⟨heads, last, hfinishes, -, rfl⟩ := h
  simp [cyclesFrom, hnew, hfinishes.run]

/-- The searches from all nodes, one after another. -/
theorem exists_sweep (hg : g.WellFormed) (found : Names × List (List String)) :
    ∃ nodes, Sweep (fun found => {v | v ∈ found.1}) (Visits g) found g.nodes.keys nodes
      (g.nodes.keys.foldl g.cyclesFrom found) := by
  have hsearch : ∀ root ∈ g.nodes.keys, ∀ found : Names × List (List String),
      root ∉ {v | v ∈ found.1} → ∃ nodes found', Visits g found root nodes found' := by
    intro root hroot found _
    obtain ⟨heads, last, h⟩ := exists_finishes hg (mem_nodes.mp hroot) found
    exact ⟨_, _, heads, last, h, rfl, rfl⟩
  obtain ⟨nodes, found', hsweep⟩ := CallGraph.exists_sweep hsearch found
  have hleft : g.nodes.keys.foldl g.cyclesFrom found = found' :=
    hsweep.foldl_eq (fun _ _ => cyclesFrom_of_mem) fun _ _ _ _ => Visits.cyclesFrom_eq
  exact ⟨nodes, hleft ▸ hsweep⟩

/-- A search from a new root enters the root and whatever is visited afterwards but not before. -/
theorem Visits.enters (hg : g.WellFormed) {found' : Names × List (List String)}
    {nodes : List String} (hroot : g.contains root = true) (hnew : root ∉ found.1)
    (h : Visits g found root nodes found') :
    root ∈ nodes ∧ Enters g {v | v ∈ found.1} nodes {v | v ∈ found'.1} := by
  obtain ⟨heads, last, hfinishes, rfl, rfl⟩ := h
  exact ⟨List.mem_cons_self, hfinishes.enters hg hroot hnew⟩

end CycleSearch

/-! ## Both searches -/

namespace CallGraph

/-- From every node of a constructed graph, and whatever is known before, both searches come to the
end of their loops. Over all nodes, with nothing known at first, each of them enters every node
exactly once; afterwards the nodes are those with a depth and those visited. -/
theorem searches_end_and_cover {contracts : List Contract} {g : CallGraph}
    (hg : ofContracts contracts = .ok g) :
    (∀ root depths, g.contains root = true →
      ∃ heads depth depths', DepthSearch.Finishes g depths root heads depth depths') ∧
    (∃ nodes, Sweep (fun depths => {v | v ∈ depths}) (DepthSearch.Visits g) ∅ g.nodes.keys nodes
        (g.maxDepth ∅).2 ∧
      nodes.Perm g.nodes.keys ∧ ∀ v, v ∈ (g.maxDepth ∅).2 ↔ g.contains v = true) ∧
    (∀ root found, g.contains root = true →
      ∃ heads last, CycleSearch.Finishes g found root heads last) ∧
    ∃ nodes, Sweep (fun found => {v | v ∈ found.1}) (CycleSearch.Visits g) (∅, []) g.nodes.keys
        nodes (g.nodes.keys.foldl g.cyclesFrom (∅, [])) ∧
      nodes.Perm g.nodes.keys ∧
      ∀ v, v ∈ (g.nodes.keys.foldl g.cyclesFrom (∅, [])).1 ↔ g.contains v = true := by
  have hwell := wellFormed_of_ofContracts hg
  refine ⟨fun root depths hroot => DepthSearch.exists_finishes hwell hroot depths, ?_,
    fun root found hroot => CycleSearch.exists_finishes hwell hroot found, ?_⟩
  · obtain ⟨nodes, hsweep⟩ := DepthSearch.exists_sweep hwell ∅
    have hnone : {v | v ∈ (∅ : Depths)} = (∅ : Set String) :=
      Set.eq_empty_of_forall_notMem fun _ => Std.ExtTreeMap.not_mem_empty
    have hcovers := hsweep.covers hnone fun _ _ _ _ => DepthSearch.Visits.enters hwell
    exact ⟨nodes, hsweep, hcovers⟩
  · obtain ⟨nodes, hsweep⟩ := CycleSearch.exists_sweep hwell (∅, [])
    have hnone : {v | v ∈ (∅ : Names)} = (∅ : Set String) :=
      Set.eq_empty_of_forall_notMem fun _ => Std.ExtTreeSet.not_mem_empty
    have hcovers := hsweep.covers hnone fun _ _ _ _ => CycleSearch.Visits.enters hwell
    exact ⟨nodes, hsweep, hcovers⟩

/-- A contract in which `a` calls itself and `b`, `b` calls `a`, and `c` calls nothing. -/
def recursive : List Contract :=
  [{ id := "C"
     kind := .concrete
     functions :=
      [{ id := "a"
         visibility := .publicly
         callSites :=
          [{ kind := .internal, name := "a", target := some ⟨"C", "a"⟩, position := 1 },
           { kind := .internal, name := "b", target := some ⟨"C", "b"⟩, position := 2 }] },
       { id := "b"
         visibility := .publicly
         callSites :=
          [{ kind := .internal, name := "a", target := some ⟨"C", "a"⟩, position := 1 }] },
       { id := "c", visibility := .publicly }] }]

/-- Both searches end and cover the graph of `recursive`, with a call of a node to itself, two nodes
that call each other and a node without calls. -/
theorem searches_end_recursive :
    ∃ g, ofContracts recursive = .ok g ∧
      g.Calls "C.a" "C.a" ∧ g.Calls "C.a" "C.b" ∧ g.Calls "C.b" "C.a" ∧ g.edges["C.c"]? = none ∧
      (∃ heads depth depths, DepthSearch.Finishes g ∅ "C.a" heads depth depths) ∧
      (∃ heads last, CycleSearch.Finishes g (∅, []) "C.a" heads last) ∧
      (∃ nodes, Sweep (fun depths => {v | v ∈ depths}) (DepthSearch.Visits g) ∅ g.nodes.keys nodes
          (g.maxDepth ∅).2 ∧ nodes.Perm ["C.a", "C.b", "C.c"]) ∧
      ∃ nodes, Sweep (fun found => {v | v ∈ found.1}) (CycleSearch.Visits g) (∅, []) g.nodes.keys
          nodes (g.nodes.keys.foldl g.cyclesFrom (∅, [])) ∧ nodes.Perm ["C.a", "C.b", "C.c"] := by
  obtain ⟨g, hg, hcheck⟩ := exists_ok_of_any (x := ofContracts recursive)
    (fun g => decide (g.Calls "C.a" "C.a" ∧ g.Calls "C.a" "C.b" ∧ g.Calls "C.b" "C.a" ∧
      g.edges.contains "C.c" = false ∧ g.nodes.keys = ["C.a", "C.b", "C.c"]))
    (by decide +kernel)
  obtain ⟨haa, hab, hba, hc, hnodes⟩ := of_decide_eq_true hcheck
  have ha : g.contains "C.a" = true := mem_nodes.mp (by rw [hnodes]; exact List.mem_cons_self)
  obtain ⟨hdepth, ⟨nodes, hsweep, hperm, -⟩, hcycles, nodes', hsweep', hperm', -⟩ :=
    searches_end_and_cover hg
  rw [hnodes] at hperm hperm'
  have hedge : g.edges["C.c"]? = none := Std.ExtTreeMap.getElem?_eq_none_of_contains_eq_false hc
  exact ⟨g, hg, haa, hab, hba, hedge, hdepth _ ∅ ha, hcycles _ (∅, []) ha,
    ⟨nodes, hsweep, hperm⟩, nodes', hsweep', hperm'⟩

end CallGraph

end RiskGate

import RiskGate.CallGraph.Depth
import RiskGate.Proofs.CallGraph.Paths

/-! # Depth-first exploration

What a depth-first search of a call graph does, told without its stack: a relation between the nodes
finished before and after the search has looked at some nodes from the end of a path. Both the
search for depths and the search for cycles go through a graph in this way.

* `Ready` is what holds whenever the search looks at the next node, and `explores_ready` that it
  keeps holding;
* `explores_total`: from a well-formed graph there always is a way on;
* `Traversal` sums up an exploration of the whole graph: every node is finished once, after all its
  callees except those on the path that led to it, and that path is the first path to it.
-/

namespace RiskGate.CallGraph

/-- A call back to a node on the path that led to the caller. -/
structure BackCall where
  caller : String
  /-- The path that led to the caller, without the caller, innermost node first. -/
  outer : List String
  callee : String

/-- The nodes that a path, given innermost node first, may go on to. An empty path may begin
anywhere. -/
def choices (g : CallGraph) : List String → List String
  | [] => g.nodes.keys
  | u :: _ => g.successors u

/-- `Explores g path pending done done' found`: at the end of `path`, given innermost node first,
the search looks at the `pending` nodes in turn. The nodes finished before are `done` and those
finished afterwards `done'`, both latest first, and the calls back to the path are `found`, in
order. -/
inductive Explores (g : CallGraph) :
    List String → List String → List String → List String → List BackCall → Prop
  | nil {path done : List String} : Explores g path [] done done []
  | known {path pending done done' : List String} {next : String} {found : List BackCall} :
      next ∈ done → Explores g path pending done done' found →
      Explores g path (next :: pending) done done' found
  | back {outer pending done done' : List String} {caller next : String} {found : List BackCall} :
      next ∈ caller :: outer → Explores g (caller :: outer) pending done done' found →
      Explores g (caller :: outer) (next :: pending) done done' (⟨caller, outer, next⟩ :: found)
  | enter {path pending done between done' : List String} {next : String}
      {inner found : List BackCall} :
      next ∉ done → next ∉ path →
      Explores g (next :: path) (g.successors next) done between inner →
      Explores g path pending (next :: between) done' found →
      Explores g path (next :: pending) done done' (inner ++ found)

/-! ## The choices at the end of a path -/

theorem sorted_choices (g : CallGraph) (path : List String) :
    (g.choices path).Pairwise (· < ·) := by
  cases path with
  | nil => exact g.sorted_nodes
  | cons u outer => exact g.sorted_successors u

theorem contains_of_mem_choices {g : CallGraph} (hg : g.WellFormed) {path : List String}
    {next : String} (h : next ∈ g.choices path) : g.contains next = true := by
  cases path with
  | nil => exact mem_nodes.mp h
  | cons u outer => exact hg.callee (mem_successors.mp h)

/-- The nodes by which a simple path may go on after `path` are among the choices. -/
theorem mem_choices_of_isSimplePath {g : CallGraph} {path : List String} {a : String}
    {tail : List String} (h : g.IsSimplePath (path.reverse ++ a :: tail)) : a ∈ g.choices path := by
  cases path with
  | nil => exact mem_nodes.mpr (h.nodes a (by simp))
  | cons u outer =>
      have hchain := h.linked
      rw [List.reverse_cons, List.append_assoc, List.singleton_append] at hchain
      exact mem_successors.mpr (List.isChain_append_cons_cons.mp hchain).2.1

/-! ## What holds whenever the search looks on -/

/-- What holds when the search, at the end of `path`, still has to look at the `pending` nodes. -/
structure Ready (g : CallGraph) (path pending done : List String) : Prop where
  simple : g.IsSimplePath path.reverse
  fresh : (path ++ done).Nodup
  nodes : ∀ v ∈ done, g.contains v = true
  /-- A finished node calls only finished nodes and nodes of the path. -/
  closed : ∀ x ∈ done, ∀ y ∈ g.successors x, y ∈ done ∨ y ∈ path
  /-- The choices that are not pending have been looked at. -/
  looked : ∃ seen, g.choices path = seen ++ pending ∧ ∀ y ∈ seen, y ∈ done ∨ y ∈ path
  /-- A simple path that parts from `path` for a smaller name has only finished nodes from there. -/
  smaller : ∀ shared b rest a tail, path.reverse = shared ++ b :: rest → a < b →
    g.IsSimplePath (shared ++ a :: tail) → ∀ x ∈ a :: tail, x ∈ done

theorem ready_start (g : CallGraph) : g.Ready [] g.nodes.keys [] where
  simple := ⟨List.nodup_nil, List.isChain_nil, by simp⟩
  fresh := List.nodup_nil
  nodes := by simp
  closed := by simp
  looked := ⟨[], rfl, by simp⟩
  smaller := by simp

theorem Ready.mem_choices {g : CallGraph} {path pending done : List String} {next : String}
    (h : g.Ready path (next :: pending) done) : next ∈ g.choices path := by
  obtain ⟨seen, hsplit, -⟩ := h.looked
  rw [hsplit]
  simp

theorem Ready.notMem_done {g : CallGraph} {path pending done : List String} {x : String}
    (h : g.Ready path pending done) (hx : x ∈ path) : x ∉ done :=
  fun hd => List.disjoint_of_nodup_append h.fresh hx hd

/-- A smaller choice than the next one has been looked at. -/
theorem Ready.settled_of_lt {g : CallGraph} {path pending done : List String} {next a : String}
    (h : g.Ready path (next :: pending) done) (ha : a ∈ g.choices path) (hlt : a < next) :
    a ∈ done ∨ a ∈ path := by
  obtain ⟨seen, hsplit, hseen⟩ := h.looked
  have hsorted := g.sorted_choices path
  rw [hsplit] at ha hsorted
  rcases List.mem_append.mp ha with ha | ha
  · exact hseen a ha
  · -- the choices are in order, so none that is pending is smaller
    have hnext := List.pairwise_cons.mp (List.pairwise_append.mp hsorted).2.1
    rcases List.mem_cons.mp ha with rfl | ha
    · exact absurd hlt (lt_irrefl a)
    · exact absurd (hnext.1 a ha) (lt_asymm hlt)

/-- A chain of calls that avoids the path stays among the finished nodes. -/
theorem Ready.chain_done {g : CallGraph} {path pending done : List String}
    (h : g.Ready path pending done) {a : String} {tail : List String}
    (hchain : (a :: tail).IsChain g.Calls) (havoid : ∀ x ∈ a :: tail, x ∉ path) (ha : a ∈ done) :
    ∀ x ∈ a :: tail, x ∈ done := by
  induction tail generalizing a with
  | nil =>
      intro x hx
      rw [List.mem_singleton.mp hx]
      exact ha
  | cons b tail ih =>
      obtain ⟨hab, hrest⟩ := List.isChain_cons_cons.mp hchain
      have hb : b ∈ done := by
        rcases h.closed a ha b (mem_successors.mpr hab) with hb | hb
        · exact hb
        · exact absurd hb (havoid b (by simp))
      intro x hx
      rcases List.mem_cons.mp hx with rfl | hx
      · exact ha
      · exact ih hrest (fun y hy => havoid y (List.mem_cons_of_mem a hy)) hb x hx

/-- The path to the innermost node is the first path to it. -/
theorem Ready.isFirstPath {g : CallGraph} {outer pending done : List String} {u : String}
    (h : g.Ready (u :: outer) pending done) : g.IsFirstPath (u :: outer).reverse u := by
  refine ⟨h.simple, by simp, ?_⟩
  intro other hother hends hlt
  have hu : u ∉ done := h.notMem_done List.mem_cons_self
  rcases lt_cases hlt with ⟨b, rest, hpath⟩ | ⟨shared, a, b, tail, rest, hparts, hpath, hab⟩
  · -- `other` is a proper part of the path, so `u` would occur on it twice
    have hdistinct := h.simple.distinct
    rw [hpath] at hdistinct
    have hlast : (b :: rest).getLast? = some u := by
      have hends' : (u :: outer).reverse.getLast? = some u := by simp
      rwa [hpath, List.getLast?_append_of_ne_nil _ (List.cons_ne_nil b rest)] at hends'
    exact List.disjoint_of_nodup_append hdistinct (List.mem_of_getLast? hends)
      (List.mem_of_getLast? hlast)
  · have hmem : u ∈ a :: tail := by
      rw [hparts, List.getLast?_append_of_ne_nil _ (List.cons_ne_nil a tail)] at hends
      exact List.mem_of_getLast? hends
    rw [hparts] at hother
    exact hu (h.smaller shared b rest a tail hpath hab hother u hmem)

/-- The search may pass over a node that is finished or on the path. -/
theorem Ready.skip {g : CallGraph} {path pending done : List String} {next : String}
    (h : g.Ready path (next :: pending) done) (hnext : next ∈ done ∨ next ∈ path) :
    g.Ready path pending done := by
  obtain ⟨seen, hsplit, hseen⟩ := h.looked
  refine { h with looked := ⟨seen ++ [next], by rw [hsplit]; simp, ?_⟩ }
  intro y hy
  rcases List.mem_append.mp hy with hy | hy
  · exact hseen y hy
  · rw [List.mem_singleton.mp hy]
    exact hnext

/-- The search may enter a node that is neither finished nor on the path. -/
theorem Ready.enter {g : CallGraph} (hg : g.WellFormed) {path pending done : List String}
    {next : String} (h : g.Ready path (next :: pending) done) (hdone : next ∉ done)
    (hpath : next ∉ path) : g.Ready (next :: path) (g.successors next) done where
  simple := by
    rw [List.reverse_cons]
    refine isSimplePath_concat h.simple (by simpa using hpath)
      (contains_of_mem_choices hg h.mem_choices) ?_
    intro u hu
    cases path with
    | nil => simp at hu
    | cons v outer =>
        simp only [List.reverse_cons, List.getLast?_append, List.getLast?_singleton,
          Option.some_or, Option.some.injEq] at hu
        rw [← hu]
        exact mem_successors.mp h.mem_choices
  fresh := by
    rw [List.cons_append, List.nodup_cons, List.mem_append, not_or]
    exact ⟨⟨hpath, hdone⟩, h.fresh⟩
  nodes := h.nodes
  closed := by
    intro x hx y hy
    rcases h.closed x hx y hy with hy | hy
    · exact Or.inl hy
    · exact Or.inr (List.mem_cons_of_mem next hy)
  looked := ⟨[], rfl, by simp⟩
  smaller := by
    intro shared b rest a tail hparts hab hsimple
    rw [List.reverse_cons] at hparts
    rcases List.eq_nil_or_concat rest with rfl | ⟨rest, last, rfl⟩
    · -- the paths part at `next`: the smaller name is a choice that has been looked at
      obtain ⟨hshared, hb⟩ := List.append_inj' hparts rfl
      obtain rfl : next = b := by simpa using hb
      rw [← hshared] at hsimple
      have hdisjoint := List.disjoint_of_nodup_append hsimple.distinct
      have havoid : ∀ x ∈ a :: tail, x ∉ path := fun x hx hp =>
        hdisjoint (List.mem_reverse.mpr hp) hx
      have ha : a ∈ done := by
        rcases h.settled_of_lt (mem_choices_of_isSimplePath hsimple) hab with ha | ha
        · exact ha
        · exact absurd ha (havoid a List.mem_cons_self)
      exact h.chain_done hsimple.linked.right_of_append havoid ha
    · have hpath : path.reverse = shared ++ b :: rest := by
        rw [List.concat_eq_append, ← List.cons_append, ← List.append_assoc] at hparts
        exact (List.append_inj' hparts rfl).1
      exact h.smaller shared b rest a tail hpath hab hsimple

/-- The search may leave a node when it has looked at all its successors. -/
theorem Ready.leave {g : CallGraph} {path pending done between : List String} {next : String}
    (h : g.Ready path (next :: pending) done) (hinner : g.Ready (next :: path) [] between)
    (hsub : done ⊆ between) : g.Ready path pending (next :: between) where
  simple := h.simple
  fresh := (List.perm_middle.nodup_iff).mpr hinner.fresh
  nodes := by
    intro v hv
    rcases List.mem_cons.mp hv with rfl | hv
    · exact hinner.simple.nodes v (by simp)
    · exact hinner.nodes v hv
  closed := by
    intro x hx y hy
    -- the node that is left has nothing pending, so all its callees have been looked at
    have hy' : y ∈ between ∨ y ∈ next :: path := by
      rcases List.mem_cons.mp hx with rfl | hx
      · obtain ⟨seen, hsplit, hseen⟩ := hinner.looked
        rw [List.append_nil] at hsplit
        exact hseen y (hsplit ▸ hy)
      · exact hinner.closed x hx y hy
    rcases hy' with hy' | hy'
    · exact Or.inl (List.mem_cons_of_mem next hy')
    · rcases List.mem_cons.mp hy' with rfl | hy'
      · exact Or.inl List.mem_cons_self
      · exact Or.inr hy'
  looked := by
    obtain ⟨seen, hsplit, hseen⟩ := h.looked
    refine ⟨seen ++ [next], by rw [hsplit]; simp, ?_⟩
    intro y hy
    rcases List.mem_append.mp hy with hy | hy
    · rcases hseen y hy with hy | hy
      · exact Or.inl (List.mem_cons_of_mem next (hsub hy))
      · exact Or.inr hy
    · rw [List.mem_singleton.mp hy]
      exact Or.inl List.mem_cons_self
  smaller := by
    intro shared b rest a tail hparts hab hsimple x hx
    exact List.mem_cons_of_mem next (hsub (h.smaller shared b rest a tail hparts hab hsimple x hx))

/-! ## Whole explorations -/

/-- What is finished stays finished. -/
theorem explores_suffix {g : CallGraph} {path pending done done' : List String}
    {found : List BackCall} (h : g.Explores path pending done done' found) : done <:+ done' := by
  induction h with
  | nil => exact List.suffix_refl _
  | known _ _ ih => exact ih
  | back _ _ ih => exact ih
  | @enter _ _ _ between _ next _ _ _ _ _ _ ihin ihout =>
      exact ihin.trans ((List.suffix_cons next between).trans ihout)

/-- Nodes that are all finished are passed over. -/
theorem explores_known {g : CallGraph} {path pending done : List String} (h : pending ⊆ done) :
    g.Explores path pending done done [] := by
  induction pending with
  | nil => exact .nil
  | cons next pending ih =>
      obtain ⟨hnext, hrest⟩ := List.cons_subset.mp h
      exact .known hnext (ih hrest)

theorem explores_ready {g : CallGraph} (hg : g.WellFormed) {path pending done done' : List String}
    {found : List BackCall} (h : g.Explores path pending done done' found)
    (hr : g.Ready path pending done) : g.Ready path [] done' := by
  induction h with
  | nil => exact hr
  | known hnext _ ih => exact ih (hr.skip (Or.inl hnext))
  | back hnext _ ih => exact ih (hr.skip (Or.inr hnext))
  | enter hdone hpath hinner _ ihin ihout =>
      exact ihout (hr.leave (ihin (hr.enter hg hdone hpath)) (explores_suffix hinner).subset)

/-- When a node has been entered and left, the search looks on from where it was. -/
theorem Ready.resume {g : CallGraph} (hg : g.WellFormed) {path pending done between : List String}
    {next : String} {inner : List BackCall} (h : g.Ready path (next :: pending) done)
    (hdone : next ∉ done) (hpath : next ∉ path)
    (hin : g.Explores (next :: path) (g.successors next) done between inner) :
    g.Ready path pending (next :: between) :=
  h.leave (explores_ready hg hin (h.enter hg hdone hpath)) (explores_suffix hin).subset

/-- An exploration always comes to an end. The induction is on the number of nodes neither finished
nor on the path, and at one number on the nodes still to look at. -/
theorem explores_total {g : CallGraph} (hg : g.WellFormed) {path pending done : List String}
    (hr : g.Ready path pending done) :
    ∃ done' found, g.Explores path pending done done' found := by
  induction hn : g.nodeCount - (path ++ done).length using Nat.strong_induction_on
    generalizing path pending done with
  | _ n ihn =>
    induction pending with
    | nil => exact ⟨done, [], .nil⟩
    | cons next pending ih =>
        by_cases hdone : next ∈ done
        · obtain ⟨done', found, h⟩ := ih (hr.skip (Or.inl hdone))
          exact ⟨done', found, .known hdone h⟩
        by_cases hpath : next ∈ path
        · obtain ⟨done', found, h⟩ := ih (hr.skip (Or.inr hpath))
          cases path with
          | nil => cases hpath
          | cons caller outer => exact ⟨done', _, .back hpath h⟩
        · -- entering uses up a node, so both what follows inside and outside is smaller
          have hr' := hr.enter hg hdone hpath
          have hroom : (next :: path ++ done).length ≤ g.nodeCount := by
            refine length_le_nodeCount hr'.fresh ?_
            intro v hv
            rcases List.mem_append.mp hv with hv | hv
            · exact hr'.simple.nodes v (List.mem_reverse.mpr hv)
            · exact hr'.nodes v hv
          simp only [List.cons_append, List.length_cons, List.length_append] at hroom hn
          obtain ⟨between, inner, hin⟩ := ihn _ (by simp; omega) hr' rfl
          have hlen := (explores_suffix hin).length_le
          obtain ⟨done', found, hrest⟩ := ihn _ (by simp; omega) (hr.resume hg hdone hpath hin) rfl
          exact ⟨done', inner ++ found, .enter hdone hpath hin hrest⟩

/-! ## The order of finishing -/

/-- In a list of finished nodes, latest first, `y` is finished before `x`. -/
def FinishedBefore (order : List String) (y x : String) : Prop := [x, y].Sublist order

theorem finishedBefore_cons {order : List String} {x y z : String} :
    FinishedBefore (z :: order) y x ↔ (x = z ∧ y ∈ order) ∨ FinishedBefore order y x := by
  unfold FinishedBefore
  rw [List.cons_sublist_cons', List.singleton_sublist, or_comm]

theorem FinishedBefore.mem {order : List String} {x y : String} (h : FinishedBefore order y x) :
    x ∈ order ∧ y ∈ order :=
  ⟨h.subset (by simp), h.subset (by simp)⟩

/-- Of two finished nodes one is finished before the other. -/
theorem finishedBefore_or {order : List String} {x y : String} (hx : x ∈ order) (hy : y ∈ order)
    (hne : x ≠ y) : FinishedBefore order x y ∨ FinishedBefore order y x := by
  induction order with
  | nil => cases hx
  | cons z order ih =>
      rw [finishedBefore_cons, finishedBefore_cons]
      rcases List.mem_cons.mp hx with rfl | hx'
      · exact Or.inr (Or.inl ⟨rfl, (List.mem_cons.mp hy).resolve_left hne.symm⟩)
      · rcases List.mem_cons.mp hy with rfl | hy'
        · exact Or.inl (Or.inl ⟨rfl, hx'⟩)
        · exact (ih hx' hy').imp Or.inr Or.inr

/-- Nodes finished later do not change what was finished before `x`. -/
theorem finishedBefore_of_suffix {done done' : List String} {x y : String} (hs : done <:+ done')
    (hd : done'.Nodup) (hx : x ∈ done) : FinishedBefore done' y x ↔ FinishedBefore done y x := by
  constructor
  · intro h
    obtain ⟨later, rfl⟩ := hs
    obtain ⟨l, r, hlr, hl, hr⟩ := List.sublist_append_iff.mp h
    cases l with
    | nil =>
        rw [List.nil_append] at hlr
        subst hlr
        exact hr
    | cons a l =>
        rw [List.cons_append, List.cons.injEq] at hlr
        have hlater : x ∈ later := hl.subset (hlr.1 ▸ List.mem_cons_self)
        exact absurd hx (List.disjoint_of_nodup_append hd hlater)
  · exact fun h => h.trans hs.sublist

/-- The later a node is finished, the further in front it stands. -/
theorem FinishedBefore.idxOf_lt {order : List String} (hd : order.Nodup) {x y : String}
    (h : FinishedBefore order y x) : order.idxOf x < order.idxOf y := by
  induction order with
  | nil => cases h
  | cons z order ih =>
      obtain ⟨hz, hd⟩ := List.nodup_cons.mp hd
      rcases finishedBefore_cons.mp h with ⟨rfl, hy⟩ | h
      · have hne : x ≠ y := fun heq => hz (heq ▸ hy)
        rw [List.idxOf_cons_self, List.idxOf_cons_ne _ hne]
        exact Nat.succ_pos _
      · have hx : z ≠ x := fun heq => hz (heq ▸ h.mem.1)
        have hy : z ≠ y := fun heq => hz (heq ▸ h.mem.2)
        rw [List.idxOf_cons_ne _ hx, List.idxOf_cons_ne _ hy]
        exact Nat.succ_lt_succ (ih hd h)

/-! ## What an exploration has done at a node -/

namespace BackCall

/-- The call itself. -/
def call (b : BackCall) : String × String := (b.caller, b.callee)

/-- A call of the graph back to a node of the first path to its caller. -/
structure IsGenuine (g : CallGraph) (b : BackCall) : Prop where
  calls : g.Calls b.caller b.callee
  onPath : b.callee ∈ b.caller :: b.outer
  first : g.IsFirstPath (b.caller :: b.outer).reverse b.caller

end BackCall

/-- A node is settled that was reached by the first path to it and whose calls all were looked at:
those back to that path are found, and the other callees are finished before it. -/
structure Settled (g : CallGraph) (done : List String) (found : List BackCall) (x : String)
    (outer : List String) : Prop where
  first : g.IsFirstPath (x :: outer).reverse x
  forward : ∀ y, g.Calls x y → y ∉ x :: outer → FinishedBefore done y x
  back : ∀ y, g.Calls x y → y ∈ x :: outer → ⟨x, outer, y⟩ ∈ found ∧ ¬ FinishedBefore done y x

/-- A node stays settled when more nodes are finished and more calls found. -/
theorem Settled.mono {g : CallGraph} {done done' outer : List String} {found found' : List BackCall}
    {x : String} (h : g.Settled done found x outer) (hx : x ∈ done) (hs : done <:+ done')
    (hd : done'.Nodup) (hf : found ⊆ found') : g.Settled done' found' x outer where
  first := h.first
  forward := fun y hy hp => (finishedBefore_of_suffix hs hd hx).mpr (h.forward y hy hp)
  back := fun y hy hp =>
    ⟨hf (h.back y hy hp).1,
      fun hb => (h.back y hy hp).2 ((finishedBefore_of_suffix hs hd hx).mp hb)⟩

/-- Every node looked at from the end of a path is finished then, or on the path and found. -/
theorem explores_looked {g : CallGraph} (hg : g.WellFormed) {path pending done done' : List String}
    {found : List BackCall} (h : g.Explores path pending done done' found)
    (hr : g.Ready path pending done) :
    ∀ y ∈ pending, (y ∈ done' ∧ y ∉ path) ∨
      ∃ caller outer, path = caller :: outer ∧ y ∈ path ∧ ⟨caller, outer, y⟩ ∈ found := by
  induction h with
  | nil => simp
  | @known path pending done done' next found hnext hrest ih =>
      have hskip := hr.skip (Or.inl hnext)
      intro y hy
      rcases List.mem_cons.mp hy with rfl | hy
      · exact Or.inl ⟨(explores_suffix hrest).subset hnext, fun hp => hr.notMem_done hp hnext⟩
      · exact ih hskip y hy
  | @back outer pending done done' caller next found hnext hrest ih =>
      have hskip := hr.skip (Or.inr hnext)
      intro y hy
      rcases List.mem_cons.mp hy with rfl | hy
      · exact Or.inr ⟨caller, outer, rfl, hnext, List.mem_cons_self⟩
      · rcases ih hskip y hy with hy | ⟨c, o, hco, hy, hmem⟩
        · exact Or.inl hy
        · exact Or.inr ⟨c, o, hco, hy, List.mem_cons_of_mem _ hmem⟩
  | @enter path pending done between done' next inner found hdone hpath hin hrest ihin ihout =>
      have hresume := hr.resume hg hdone hpath hin
      intro y hy
      rcases List.mem_cons.mp hy with rfl | hy
      · exact Or.inl ⟨(explores_suffix hrest).subset List.mem_cons_self, hpath⟩
      · rcases ihout hresume y hy with hy | ⟨c, o, hco, hy, hmem⟩
        · exact Or.inl hy
        · exact Or.inr ⟨c, o, hco, hy, List.mem_append_right _ hmem⟩

/-- The node entered is settled when it is finished: its calls were looked at while it was the
innermost node. -/
theorem settled_of_enter {g : CallGraph} (hg : g.WellFormed) {path done between : List String}
    {next : String} {inner : List BackCall}
    (h : g.Explores (next :: path) (g.successors next) done between inner)
    (hr : g.Ready (next :: path) (g.successors next) done) :
    g.Settled (next :: between) inner next path := by
  have hready := explores_ready hg h hr
  have hlooked := explores_looked hg h hr
  refine ⟨hready.isFirstPath, ?_, ?_⟩
  · intro y hy hp
    rcases hlooked y (mem_successors.mpr hy) with ⟨hyb, -⟩ | ⟨c, o, -, hyp, -⟩
    · exact finishedBefore_cons.mpr (Or.inl ⟨rfl, hyb⟩)
    · exact absurd hyp hp
  · intro y hy hp
    rcases hlooked y (mem_successors.mpr hy) with ⟨-, hyp⟩ | ⟨c, o, hco, -, hmem⟩
    · exact absurd hp hyp
    · cases hco
      refine ⟨hmem, fun hb => ?_⟩
      rcases finishedBefore_cons.mp hb with ⟨-, hyb⟩ | hb
      · exact hready.notMem_done hp hyb
      · exact hready.notMem_done List.mem_cons_self hb.mem.1

/-- Every node finished on the way is settled. -/
theorem explores_settled {g : CallGraph} (hg : g.WellFormed) {path pending done done' : List String}
    {found : List BackCall} (h : g.Explores path pending done done' found)
    (hr : g.Ready path pending done) :
    ∀ x ∈ done', x ∉ done → ∃ outer, g.Settled done' found x outer := by
  induction h with
  | nil => exact fun x hx hnot => absurd hx hnot
  | known hnext _ ih => exact ih (hr.skip (Or.inl hnext))
  | back hnext _ ih =>
      intro x hx hnot
      obtain ⟨outer, hsettled⟩ := ih (hr.skip (Or.inr hnext)) x hx hnot
      exact ⟨outer, hsettled.first, hsettled.forward, fun y hy hp =>
        ⟨List.mem_cons_of_mem _ (hsettled.back y hy hp).1, (hsettled.back y hy hp).2⟩⟩
  | @enter path pending done between done' next inner found hdone hpath hin hrest ihin ihout =>
      have henter := hr.enter hg hdone hpath
      have hresume := hr.resume hg hdone hpath hin
      have hnodup : done'.Nodup := (explores_ready hg hrest hresume).fresh.of_append_right
      -- what is settled when `next` is left stays so for the rest of the exploration
      have hinside : ∀ x ∈ next :: between, x ∉ done →
          ∃ outer, g.Settled (next :: between) inner x outer := by
        intro x hx hnot
        rcases List.mem_cons.mp hx with rfl | hx
        · exact ⟨path, settled_of_enter hg hin henter⟩
        · obtain ⟨outer, hsettled⟩ := ihin henter x hx hnot
          exact ⟨outer, hsettled.mono hx (List.suffix_cons next between)
            hresume.fresh.of_append_right (List.Subset.refl _)⟩
      intro x hx hnot
      by_cases hx' : x ∈ next :: between
      · obtain ⟨outer, hsettled⟩ := hinside x hx' hnot
        exact ⟨outer, hsettled.mono hx' (explores_suffix hrest) hnodup
          (List.subset_append_left inner found)⟩
      · obtain ⟨outer, hsettled⟩ := ihout hresume x hx hx'
        exact ⟨outer, hsettled.mono hx (List.suffix_refl _) hnodup
          (List.subset_append_right inner found)⟩

/-! ## The calls found -/

/-- The next node is called by the innermost node of the path. -/
theorem Ready.calls_next {g : CallGraph} {caller next : String} {outer pending done : List String}
    (h : g.Ready (caller :: outer) (next :: pending) done) : g.Calls caller next :=
  mem_successors.mp h.mem_choices

/-- Only calls back to the first path to their caller are found. -/
theorem explores_genuine {g : CallGraph} (hg : g.WellFormed) {path pending done done' : List String}
    {found : List BackCall} (h : g.Explores path pending done done' found)
    (hr : g.Ready path pending done) : ∀ b ∈ found, b.IsGenuine g := by
  induction h with
  | nil => simp
  | known hnext _ ih => exact ih (hr.skip (Or.inl hnext))
  | back hnext _ ih =>
      intro b hb
      rcases List.mem_cons.mp hb with rfl | hb
      · exact ⟨hr.calls_next, hnext, hr.isFirstPath⟩
      · exact ih (hr.skip (Or.inr hnext)) b hb
  | enter hdone hpath hin _ ihin ihout =>
      have henter := hr.enter hg hdone hpath
      have hresume := hr.resume hg hdone hpath hin
      intro b hb
      rcases List.mem_append.mp hb with hb | hb
      · exact ihin henter b hb
      · exact ihout hresume b hb

/-- A call found was pending at the end of the path, or its caller has been finished since. -/
theorem explores_caller {g : CallGraph} (hg : g.WellFormed) {path pending done done' : List String}
    {found : List BackCall} (h : g.Explores path pending done done' found)
    (hr : g.Ready path pending done) :
    ∀ b ∈ found, (path = b.caller :: b.outer ∧ b.callee ∈ pending) ∨
      (b.caller ∈ done' ∧ b.caller ∉ done) := by
  induction h with
  | nil => simp
  | known hnext _ ih =>
      intro b hb
      rcases ih (hr.skip (Or.inl hnext)) b hb with ⟨hpath, hpending⟩ | hfin
      · exact Or.inl ⟨hpath, List.mem_cons_of_mem _ hpending⟩
      · exact Or.inr hfin
  | back hnext _ ih =>
      intro b hb
      rcases List.mem_cons.mp hb with rfl | hb
      · exact Or.inl ⟨rfl, List.mem_cons_self⟩
      · rcases ih (hr.skip (Or.inr hnext)) b hb with ⟨hpath, hpending⟩ | hfin
        · exact Or.inl ⟨hpath, List.mem_cons_of_mem _ hpending⟩
        · exact Or.inr hfin
  | @enter path pending done between done' next inner found hdone hpath hin hrest ihin ihout =>
      have henter := hr.enter hg hdone hpath
      have hresume := hr.resume hg hdone hpath hin
      have hsub := (explores_suffix hrest).subset
      intro b hb
      rcases List.mem_append.mp hb with hb | hb
      · -- an inner call is made by the node entered, or by one that is finished inside
        rcases ihin henter b hb with ⟨hcaller, -⟩ | ⟨hfin, hnot⟩
        · obtain rfl : next = b.caller := (List.cons.inj hcaller).1
          exact Or.inr ⟨hsub List.mem_cons_self, hdone⟩
        · exact Or.inr ⟨hsub (List.mem_cons_of_mem next hfin), hnot⟩
      · rcases ihout hresume b hb with ⟨hcaller, hpending⟩ | ⟨hfin, hnot⟩
        · exact Or.inl ⟨hcaller, List.mem_cons_of_mem next hpending⟩
        · exact Or.inr ⟨hfin, fun hb => hnot
            (List.mem_cons_of_mem next ((explores_suffix hin).subset hb))⟩

/-- Pending nodes are distinct. -/
theorem Ready.nodup_pending {g : CallGraph} {path pending done : List String}
    (h : g.Ready path pending done) : pending.Nodup := by
  obtain ⟨seen, hsplit, -⟩ := h.looked
  have hnodup := nodup_of_sorted (g.sorted_choices path)
  rw [hsplit] at hnodup
  exact hnodup.of_append_right

/-- No call is found twice. -/
theorem explores_distinct {g : CallGraph} (hg : g.WellFormed)
    {path pending done done' : List String} {found : List BackCall}
    (h : g.Explores path pending done done' found)
    (hr : g.Ready path pending done) : (found.map BackCall.call).Nodup := by
  induction h with
  | nil => exact List.nodup_nil
  | known hnext _ ih => exact ih (hr.skip (Or.inl hnext))
  | @back outer pending done done' caller next found hnext hrest ih =>
      have hskip := hr.skip (Or.inr hnext)
      refine List.nodup_cons.mpr ⟨?_, ih hskip⟩
      intro hmem
      obtain ⟨b, hb, hcall⟩ := List.mem_map.mp hmem
      obtain ⟨hcaller, hcallee⟩ : b.caller = caller ∧ b.callee = next := Prod.mk.inj hcall
      rcases explores_caller hg hrest hskip b hb with ⟨-, hpending⟩ | ⟨hfin, -⟩
      · exact (List.nodup_cons.mp hr.nodup_pending).1 (hcallee ▸ hpending)
      · have hfinal := explores_ready hg hrest hskip
        exact hfinal.notMem_done List.mem_cons_self (hcaller ▸ hfin)
  | @enter path pending done between done' next inner found hdone hpath hin hrest ihin ihout =>
      have henter := hr.enter hg hdone hpath
      have hresume := hr.resume hg hdone hpath hin
      rw [List.map_append]
      refine List.Nodup.append (ihin henter) (ihout hresume) ?_
      intro e hinner houter
      obtain ⟨b, hb, rfl⟩ := List.mem_map.mp hinner
      obtain ⟨c, hc, hcall⟩ := List.mem_map.mp houter
      obtain ⟨hcaller, -⟩ := Prod.mk.inj hcall
      -- callers of the inner calls are finished when the outer ones are looked at
      have hbefore : b.caller ∈ next :: between := by
        rcases explores_caller hg hin henter b hb with ⟨hpath', -⟩ | ⟨hfin, -⟩
        · rw [← (List.cons.inj hpath').1]
          exact List.mem_cons_self
        · exact List.mem_cons_of_mem next hfin
      rcases explores_caller hg hrest hresume c hc with ⟨hpath', -⟩ | ⟨-, hnot⟩
      · refine hresume.notMem_done ?_ hbefore
        rw [hpath', hcaller]
        exact List.mem_cons_self
      · exact hnot (hcaller ▸ hbefore)

/-! ## How long an exploration takes -/

/-- The steps that a search spends on nodes from entering to leaving them: one for each call, and
one to leave. -/
def effort (g : CallGraph) (order : List String) : Nat :=
  (order.map fun v => (g.successors v).length + 1).sum

theorem effort_cons (g : CallGraph) (v : String) (order : List String) :
    g.effort (v :: order) = (g.successors v).length + 1 + g.effort order := by
  simp [effort]

/-- Distinct nodes take less than the limit. -/
theorem effort_lt_stepLimit {g : CallGraph} {order : List String} (hd : order.Nodup)
    (hn : ∀ v ∈ order, g.contains v = true) : g.effort order < g.stepLimit := by
  have hsplit : g.effort order =
      (order.map fun v => (g.successors v).length).sum + order.length := by
    unfold effort
    induction order with
    | nil => rfl
    | cons v order ih =>
        have hrest := ih (List.nodup_cons.mp hd).2 fun w hw => hn w (List.mem_cons_of_mem v hw)
        simp only [List.map_cons, List.sum_cons, List.length_cons, hrest]
        omega
  have hcalls := sum_successors_le_edgeCount (g := g) hd
  have hnodes := length_le_nodeCount hd hn
  unfold stepLimit
  omega

/-- The steps of a search from one root, and one more to leave it, stay within the limit. -/
theorem lt_stepLimit_of_explores {g : CallGraph} (hg : g.WellFormed) {done between : List String}
    {root : String} {inner : List BackCall} {n : Nat}
    (h : g.Explores [root] (g.successors root) done between inner)
    (hr : g.Ready [root] (g.successors root) done)
    (hn : n + g.effort done = (g.successors root).length + g.effort between) :
    n + 1 < g.stepLimit := by
  have hend := explores_ready hg h hr
  have hnodes : ∀ v ∈ root :: between, g.contains v = true := by
    intro v hv
    rcases List.mem_cons.mp hv with rfl | hv
    · exact hend.simple.nodes v (by simp)
    · exact hend.nodes v hv
  have hlimit : g.effort (root :: between) < g.stepLimit := effort_lt_stepLimit hend.fresh hnodes
  rw [effort_cons] at hlimit
  omega

/-- A search that runs step by step comes from one state to another in `n` steps, whatever limit is
left to it then. -/
def Leads {State Result : Type} (run : Nat → State → Result) (n : Nat) (s s' : State) : Prop :=
  ∀ limit, run (n + limit) s = run limit s'

theorem leads_refl {State Result : Type} (run : Nat → State → Result) (s : State) :
    Leads run 0 s s := by
  intro limit
  rw [Nat.zero_add]

theorem leads_one {State Result : Type} {run : Nat → State → Result} {s s' : State}
    (h : ∀ limit, run (limit + 1) s = run limit s') : Leads run 1 s s' := by
  intro limit
  rw [Nat.add_comm, h]

theorem Leads.trans {State Result : Type} {run : Nat → State → Result} {s s' s'' : State}
    {m n : Nat} (h : Leads run m s s') (h' : Leads run n s' s'') : Leads run (m + n) s s'' := by
  intro limit
  rw [Nat.add_assoc, h, h']

/-! ## Traversals -/

/-- An exploration of the whole graph: the nodes in the order of finishing, latest first, and the
calls back to the path that were found on the way. -/
structure Traversal (g : CallGraph) (order : List String) (found : List BackCall) : Prop where
  explores : g.Explores [] g.nodes.keys [] order found
  nodup : order.Nodup
  mem_order : ∀ v, v ∈ order ↔ g.contains v = true
  settled : ∀ v ∈ order, ∃ outer, g.Settled order found v outer
  genuine : ∀ b ∈ found, b.IsGenuine g
  distinct : (found.map BackCall.call).Nodup

theorem traversal_exists {g : CallGraph} (hg : g.WellFormed) :
    ∃ order found, g.Traversal order found := by
  have hstart := ready_start g
  obtain ⟨order, found, h⟩ := explores_total hg hstart
  have hend := explores_ready hg h hstart
  refine ⟨order, found, h, hend.fresh, ?_, ?_, explores_genuine hg h hstart,
    explores_distinct hg h hstart⟩
  · intro v
    constructor
    · exact hend.nodes v
    · intro hv
      -- nothing is pending at the end and the path is empty, so every root is finished
      obtain ⟨seen, hsplit, hseen⟩ := hend.looked
      rw [List.append_nil] at hsplit
      have hv' : v ∈ seen := hsplit ▸ mem_nodes.mpr hv
      rcases hseen v hv' with hv' | hv'
      · exact hv'
      · cases hv'
  · intro v hv
    exact explores_settled hg h hstart v hv List.not_mem_nil

namespace Traversal

/-- The calls found are all those that go back to the first path to their caller. -/
theorem mem_found {g : CallGraph} (hg : g.WellFormed) {order : List String} {found : List BackCall}
    (h : g.Traversal order found) {b : BackCall} : b ∈ found ↔ b.IsGenuine g := by
  constructor
  · exact h.genuine b
  · intro hb
    -- there is only one first path to the caller, so the search was there when it met the call
    obtain ⟨outer, hsettled⟩ := h.settled b.caller ((h.mem_order _).mpr (hg.caller hb.calls))
    have hpath : b.caller :: outer = b.caller :: b.outer :=
      List.reverse_injective (hsettled.first.unique hb.first)
    obtain rfl : outer = b.outer := (List.cons.inj hpath).2
    exact (hsettled.back b.callee hb.calls hb.onPath).1

/-- Of the calls of the graph those are found whose callee is not finished before the caller. -/
theorem mem_calls_found {g : CallGraph} (hg : g.WellFormed) {order : List String}
    {found : List BackCall} (h : g.Traversal order found) {u w : String} (huw : g.Calls u w) :
    (u, w) ∈ found.map BackCall.call ↔ ¬ FinishedBefore order w u := by
  obtain ⟨outer, hsettled⟩ := h.settled u ((h.mem_order u).mpr (hg.caller huw))
  constructor
  · intro hmem
    obtain ⟨b, hb, hcall⟩ := List.mem_map.mp hmem
    obtain ⟨rfl, rfl⟩ := Prod.mk.inj hcall
    have hgenuine := h.genuine b hb
    have hpath : b.caller :: outer = b.caller :: b.outer :=
      List.reverse_injective (hsettled.first.unique hgenuine.first)
    exact (hsettled.back b.callee huw (hpath ▸ hgenuine.onPath)).2
  · intro hnot
    -- a callee off the path would be finished before its caller
    have honpath : w ∈ u :: outer := by
      by_contra hw
      exact hnot (hsettled.forward w huw hw)
    exact List.mem_map.mpr ⟨⟨u, outer, w⟩, (hsettled.back w huw honpath).1, rfl⟩

end Traversal

end RiskGate.CallGraph

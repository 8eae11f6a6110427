import RiskGate.Proofs.CallGraph.Exploration

/-! # Loops over a stack of nodes

A depth-first search with a stack of its own is a loop that looks at a successor, enters it or
leaves a node in every round. How long it goes on and which nodes it enters follows from these three
moves alone.

* `Loop`: a loop that ends, with the states at its head; `MovesBy.exists_loop`: a loop that makes
  such moves does end, and `MovesBy.length_add_remaining` counts its rounds;
* `MovesBy.enters`: it enters nodes that were not seen before, each once, and sees no others;
* `Sweep`: one search after another, from every root that is not known by then; `Sweep.covers`: what
  the searches enter together.
-/

namespace RiskGate.CallGraph

/-! ## Loops that end -/

section

variable {State : Type} {next : State → Option State}

/-- `Loop next s heads last`: a loop that begins in `s` ends in `last`, and `heads` are the states
at its head, in order, from `s` to `last`. -/
inductive Loop (next : State → Option State) : State → List State → State → Prop
  | ended {s : State} : next s = none → Loop next s [s] s
  | again {s s' last : State} {heads : List State} :
      next s = some s' → Loop next s' heads last → Loop next s (s :: heads) last

theorem Loop.next_last {s last : State} {heads : List State} (h : Loop next s heads last) :
    next last = none := by
  induction h with
  | ended hnone => exact hnone
  | again _ _ ih => exact ih

theorem Loop.last_mem {s last : State} {heads : List State} (h : Loop next s heads last) :
    last ∈ heads := by
  induction h with
  | ended => exact List.mem_singleton_self _
  | again _ _ ih => exact List.mem_cons_of_mem _ ih

/-- What every round keeps holds at every head. -/
theorem Loop.invariant {Inv : State → Prop}
    (hkeep : ∀ s s', Inv s → next s = some s' → Inv s') {s last : State} {heads : List State}
    (h : Loop next s heads last) (hs : Inv s) : ∀ t ∈ heads, Inv t := by
  induction h with
  | ended =>
      intro t ht
      rw [List.mem_singleton.mp ht]
      exact hs
  | @again s s' last heads hnext _ ih =>
      intro t ht
      rcases List.mem_cons.mp ht with rfl | ht
      · exact hs
      · exact ih (hkeep s s' hs hnext) t ht

end

/-! ## Moves -/

/-- What there is to see of a search at the head of its loop. -/
structure View where
  /-- The nodes entered and not left, innermost first. -/
  stack : List String
  /-- The nodes that are not entered any more. -/
  seen : Set String
  /-- The rounds that the nodes on the stack still take: one for each successor not looked at, and
  one to leave. -/
  rounds : Nat

/-- One round of a search: it passes over a successor, enters one that was not seen, or leaves the
innermost node. -/
inductive Move (g : CallGraph) (view view' : View) : Prop
  | pass : view'.stack = view.stack → view'.seen = view.seen → view.rounds = view'.rounds + 1 →
      Move g view view'
  | enter (v : String) : g.contains v = true → v ∉ view.seen → view'.stack = v :: view.stack →
      view'.seen = insert v view.seen →
      view'.rounds = view.rounds + (g.successors v).length → Move g view view'
  | leave (v : String) : view.stack = v :: view'.stack → view'.seen = view.seen →
      view.rounds = view'.rounds + 1 → Move g view view'

open Classical in
/-- The nodes that were not seen. -/
noncomputable def unseen (g : CallGraph) (seen : Set String) : List String :=
  g.nodes.keys.filter (· ∉ seen)

theorem mem_unseen {g : CallGraph} {seen : Set String} {v : String} :
    v ∈ g.unseen seen ↔ g.contains v = true ∧ v ∉ seen := by
  simp only [unseen, List.mem_filter, mem_nodes, decide_eq_true_eq]

theorem nodup_unseen (g : CallGraph) (seen : Set String) : (g.unseen seen).Nodup :=
  (nodup_of_sorted g.sorted_nodes).filter _

theorem effort_perm {g : CallGraph} {order order' : List String} (h : order.Perm order') :
    g.effort order = g.effort order' :=
  (h.map _).sum_eq

/-- The rounds that a search may still take: those of the nodes on the stack, and those of all nodes
that it has not seen. -/
noncomputable def View.remaining (g : CallGraph) (view : View) : Nat :=
  view.rounds + g.effort (g.unseen view.seen)

/-- Entering a node takes it from the unseen ones and puts its rounds on the stack. -/
theorem effort_unseen_insert {g : CallGraph} {seen : Set String} {v : String}
    (hnode : g.contains v = true) (hnew : v ∉ seen) :
    g.effort (g.unseen seen) =
      (g.successors v).length + 1 + g.effort (g.unseen (insert v seen)) := by
  have hnot : v ∉ g.unseen (insert v seen) := fun h =>
    (mem_unseen.mp h).2 (Set.mem_insert v seen)
  have hperm : (g.unseen seen).Perm (v :: g.unseen (insert v seen)) := by
    refine (List.perm_ext_iff_of_nodup (nodup_unseen g seen)
      (List.nodup_cons.mpr ⟨hnot, nodup_unseen g _⟩)).mpr fun w => ?_
    rw [List.mem_cons, mem_unseen, mem_unseen, Set.mem_insert_iff, not_or]
    by_cases hw : w = v
    · simp [hw, hnode, hnew]
    · simp [hw]
  rw [effort_perm hperm, effort_cons]

/-- A search with one node on its stack, which it has seen, takes less rounds than the limit. -/
theorem View.remaining_lt_stepLimit {g : CallGraph} {view : View} {root : String}
    (hnode : g.contains root = true) (hseen : root ∈ view.seen)
    (hrounds : view.rounds = (g.successors root).length + 1) : view.remaining g < g.stepLimit := by
  have hnot : root ∉ g.unseen view.seen := fun h => (mem_unseen.mp h).2 hseen
  have hnodes : ∀ v ∈ root :: g.unseen view.seen, g.contains v = true :=
    List.forall_mem_cons.mpr ⟨hnode, fun v hv => (mem_unseen.mp hv).1⟩
  have hlimit := effort_lt_stepLimit (List.nodup_cons.mpr ⟨hnot, nodup_unseen g _⟩) hnodes
  rwa [effort_cons, ← hrounds] at hlimit

/-- Every round takes one from what remains. -/
theorem Move.remaining_eq {g : CallGraph} {view view' : View} (h : Move g view view') :
    view.remaining g = view'.remaining g + 1 := by
  cases h with
  | pass _ hseen hrounds =>
      simp only [View.remaining, hseen, hrounds]
      omega
  | enter v hnode hnew _ hseen hrounds =>
      simp only [View.remaining, effort_unseen_insert hnode hnew, hseen, hrounds]
      omega
  | leave v _ hseen hrounds =>
      simp only [View.remaining, hseen, hrounds]
      omega

/-- A move enters a new node, or the stack does not grow and no other nodes are seen. -/
theorem Move.enters_or {g : CallGraph} {view view' : View} (h : Move g view view') :
    (∃ v, g.contains v = true ∧ v ∉ view.seen ∧ view'.stack = v :: view.stack ∧
      view'.seen = insert v view.seen) ∨
      view'.stack.length ≤ view.stack.length ∧ view'.seen = view.seen := by
  cases h with
  | pass hstack hseen _ => exact .inr ⟨by rw [hstack], hseen⟩
  | enter v hnode hnew hstack hseen _ => exact .inl ⟨v, hnode, hnew, hstack, hseen⟩
  | leave v hstack hseen _ => exact .inr ⟨by rw [hstack]; exact Nat.le_succ _, hseen⟩

/-! ## Searches -/

section

variable {State : Type}

/-- The node that the next round enters, if it enters one. -/
def entered (next : State → Option State) (view : State → View) (s : State) : Option String :=
  (next s).bind fun s' =>
    if (view s).stack.length < (view s').stack.length then (view s').stack.head? else none

/-- The nodes that a search from `root` enters, in order. -/
def pushes (next : State → Option State) (view : State → View) (root : String)
    (heads : List State) : List String :=
  root :: heads.filterMap (entered next view)

/-- A loop makes moves, as long as an invariant holds. -/
def MovesBy (g : CallGraph) (next : State → Option State) (view : State → View)
    (Inv : State → Prop) : Prop :=
  ∀ s s', Inv s → next s = some s' → Inv s' ∧ Move g (view s) (view s')

variable {g : CallGraph} {next : State → Option State} {view : State → View} {Inv : State → Prop}

/-- A loop that makes moves ends. The induction is on the rounds that remain. -/
theorem MovesBy.exists_loop (hmoves : MovesBy g next view Inv) {s : State} (hs : Inv s) :
    ∃ heads last, Loop next s heads last := by
  induction hn : (view s).remaining g generalizing s with
  | zero =>
      cases hnext : next s with
      | none => exact ⟨[s], s, .ended hnext⟩
      | some s' =>
          have hround := (hmoves s s' hs hnext).2.remaining_eq
          omega
  | succ n ih =>
      cases hnext : next s with
      | none => exact ⟨[s], s, .ended hnext⟩
      | some s' =>
          obtain ⟨hs', hmove⟩ := hmoves s s' hs hnext
          have hround := hmove.remaining_eq
          obtain ⟨heads, last, hloop⟩ := ih hs' (by omega)
          exact ⟨s :: heads, last, .again hnext hloop⟩

theorem MovesBy.invariant (hmoves : MovesBy g next view Inv) {s last : State} {heads : List State}
    (h : Loop next s heads last) (hs : Inv s) : ∀ t ∈ heads, Inv t :=
  h.invariant (fun t t' ht hnext => (hmoves t t' ht hnext).1) hs

/-- There are as many heads as rounds that do not remain at the end, and one for the end. -/
theorem MovesBy.length_add_remaining (hmoves : MovesBy g next view Inv) {s last : State}
    {heads : List State} (h : Loop next s heads last) (hs : Inv s) :
    heads.length + (view last).remaining g = (view s).remaining g + 1 := by
  induction h with
  | ended => rw [List.length_singleton, Nat.add_comm]
  | again hnext _ ih =>
      obtain ⟨hs', hmove⟩ := hmoves _ _ hs hnext
      have hrest := ih hs'
      have hround := hmove.remaining_eq
      rw [List.length_cons]
      omega

/-- What a loop enters: each node once, none that was seen before, and no more are seen afterwards.
-/
structure Enters (g : CallGraph) (seen : Set String) (nodes : List String) (seen' : Set String) :
    Prop where
  nodup : nodes.Nodup
  new : ∀ v ∈ nodes, v ∉ seen
  contains : ∀ v ∈ nodes, g.contains v = true
  seen_eq : seen' = seen ∪ {v | v ∈ nodes}

theorem enters_nil (g : CallGraph) (seen : Set String) : Enters g seen [] seen where
  nodup := List.nodup_nil
  new := by simp
  contains := by simp
  seen_eq := by simp

/-- A new node is entered before others. -/
theorem Enters.cons {seen seen' : Set String} {v : String} {nodes : List String}
    (hnode : g.contains v = true) (hnew : v ∉ seen) (h : Enters g (insert v seen) nodes seen') :
    Enters g seen (v :: nodes) seen' where
  nodup := List.nodup_cons.mpr ⟨fun hv => h.new v hv (Set.mem_insert v seen), h.nodup⟩
  new := by
    intro w hw
    rcases List.mem_cons.mp hw with rfl | hw
    · exact hnew
    · exact fun hseen => h.new w hw (Set.mem_insert_of_mem v hseen)
  contains := by
    intro w hw
    rcases List.mem_cons.mp hw with rfl | hw
    · exact hnode
    · exact h.contains w hw
  seen_eq := by
    rw [h.seen_eq]
    ext w
    simp only [Set.mem_union, Set.mem_insert_iff, Set.mem_ofPred_eq, List.mem_cons]
    tauto

/-- Nodes are entered by one search after another. -/
theorem Enters.append {seen between seen' : Set String} {nodes later : List String}
    (h : Enters g seen nodes between) (h' : Enters g between later seen') :
    Enters g seen (nodes ++ later) seen' where
  nodup := by
    refine h.nodup.append h'.nodup fun v hv hlater => h'.new v hlater ?_
    rw [h.seen_eq]
    exact Or.inr hv
  new := by
    intro v hv
    rcases List.mem_append.mp hv with hv | hv
    · exact h.new v hv
    · refine fun hseen => h'.new v hv ?_
      rw [h.seen_eq]
      exact Or.inl hseen
  contains := by
    intro v hv
    rcases List.mem_append.mp hv with hv | hv
    · exact h.contains v hv
    · exact h'.contains v hv
  seen_eq := by
    rw [h'.seen_eq, h.seen_eq]
    ext v
    simp only [Set.mem_union, Set.mem_ofPred_eq, List.mem_append]
    tauto

/-- A loop enters new nodes only, and sees what it enters. -/
theorem MovesBy.enters (hmoves : MovesBy g next view Inv) {s last : State} {heads : List State}
    (h : Loop next s heads last) (hs : Inv s) :
    Enters g (view s).seen (heads.filterMap (entered next view)) (view last).seen := by
  induction h with
  | @ended s hnone =>
      have hnothing : entered next view s = none := by rw [entered, hnone, Option.bind_none]
      rw [List.filterMap_cons_none hnothing, List.filterMap_nil]
      exact enters_nil g _
  | @again s s' last heads hnext _ ih =>
      obtain ⟨hs', hmove⟩ := hmoves s s' hs hnext
      have hrest := ih hs'
      rcases hmove.enters_or with ⟨v, hnode, hnew, hstack, hseen⟩ | ⟨hstack, hseen⟩
      · have hentered : entered next view s = some v := by
          simp [entered, hnext, hstack]
        rw [List.filterMap_cons_some hentered]
        rw [hseen] at hrest
        exact hrest.cons hnode hnew
      · have hentered : entered next view s = none := by
          simp [entered, hnext, Nat.not_lt.mpr hstack]
        rw [List.filterMap_cons_none hentered]
        rwa [hseen] at hrest

/-- Every round of the loop is a move. -/
theorem MovesBy.isChain (hmoves : MovesBy g next view Inv) {s last : State} {heads : List State}
    (h : Loop next s heads last) (hs : Inv s) :
    heads.IsChain fun t t' => Move g (view t) (view t') := by
  induction h with
  | ended => exact List.isChain_singleton _
  | @again s s' last heads hnext hloop ih =>
      obtain ⟨hs', hmove⟩ := hmoves s s' hs hnext
      refine (ih hs').cons fun t ht => ?_
      obtain rfl : s' = t := by
        cases hloop with
        | ended => exact Option.some.inj ht
        | again => exact Option.some.inj ht
      exact hmove

end

/-! ## One search after another -/

section

variable {Shared : Type} {known : Shared → Set String}
  {search : Shared → String → List String → Shared → Prop}

/-- `Sweep known search shared roots nodes shared'`: there is a search from each of the roots in
turn that is not known by then. Each goes on with what the ones before have left, and `nodes` are
those that they enter, in order. -/
inductive Sweep (known : Shared → Set String)
    (search : Shared → String → List String → Shared → Prop) :
    Shared → List String → List String → Shared → Prop
  | ended {shared : Shared} : Sweep known search shared [] [] shared
  | skip {shared shared' : Shared} {root : String} {roots nodes : List String} :
      root ∈ known shared → Sweep known search shared roots nodes shared' →
      Sweep known search shared (root :: roots) nodes shared'
  | search {shared between shared' : Shared} {root : String} {roots nodes later : List String} :
      root ∉ known shared → search shared root nodes between →
      Sweep known search between roots later shared' →
      Sweep known search shared (root :: roots) (nodes ++ later) shared'

/-- A sweep goes through if there is a search from every new root. -/
theorem exists_sweep {roots : List String}
    (hsearch : ∀ root ∈ roots, ∀ shared, root ∉ known shared →
      ∃ nodes shared', search shared root nodes shared') (shared : Shared) :
    ∃ nodes shared', Sweep known search shared roots nodes shared' := by
  induction roots generalizing shared with
  | nil => exact ⟨[], shared, .ended⟩
  | cons root roots ih =>
      have hrest := ih fun other hother => hsearch other (List.mem_cons_of_mem root hother)
      by_cases hroot : root ∈ known shared
      · obtain ⟨nodes, shared', hsweep⟩ := hrest shared
        exact ⟨nodes, shared', .skip hroot hsweep⟩
      · obtain ⟨nodes, between, hfound⟩ := hsearch root List.mem_cons_self shared hroot
        obtain ⟨later, shared', hsweep⟩ := hrest between
        exact ⟨nodes ++ later, shared', .search hroot hfound hsweep⟩

/-- What is left is what visiting the roots one by one gives. -/
theorem Sweep.foldl_eq {visit : Shared → String → Shared}
    (hknown : ∀ shared root, root ∈ known shared → visit shared root = shared)
    (hvisit : ∀ shared root nodes shared', root ∉ known shared →
      search shared root nodes shared' → visit shared root = shared')
    {shared shared' : Shared} {roots nodes : List String}
    (h : Sweep known search shared roots nodes shared') : roots.foldl visit shared = shared' := by
  induction h with
  | ended => rfl
  | skip hroot _ ih => rw [List.foldl_cons, hknown _ _ hroot, ih]
  | search hroot hfound _ ih => rw [List.foldl_cons, hvisit _ _ _ _ hroot hfound, ih]

/-- If each search enters its root and knows afterwards what it has entered, so does the sweep. -/
theorem Sweep.enters {g : CallGraph} {shared shared' : Shared} {roots nodes : List String}
    (h : Sweep known search shared roots nodes shared')
    (hnodes : ∀ root ∈ roots, g.contains root = true)
    (hsearch : ∀ shared root nodes shared', g.contains root = true → root ∉ known shared →
      search shared root nodes shared' →
      root ∈ nodes ∧ Enters g (known shared) nodes (known shared')) :
    Enters g (known shared) nodes (known shared') ∧ ∀ root ∈ roots, root ∈ known shared' := by
  induction h with
  | ended => exact ⟨enters_nil g _, by simp⟩
  | skip hroot _ ih =>
      obtain ⟨henters, hroots⟩ := ih (List.forall_mem_cons.mp hnodes).2
      refine ⟨henters, List.forall_mem_cons.mpr ⟨?_, hroots⟩⟩
      rw [henters.seen_eq]
      exact Or.inl hroot
  | search hroot hfound _ ih =>
      obtain ⟨hnode, hothers⟩ := List.forall_mem_cons.mp hnodes
      obtain ⟨hmem, hfirst⟩ := hsearch _ _ _ _ hnode hroot hfound
      obtain ⟨henters, hroots⟩ := ih hothers
      refine ⟨hfirst.append henters, List.forall_mem_cons.mpr ⟨?_, hroots⟩⟩
      rw [henters.seen_eq, hfirst.seen_eq]
      exact Or.inl (Or.inr hmem)

/-- A sweep over all nodes that knows none at first enters each once, and knows all of them
afterwards and nothing else. -/
theorem Sweep.covers {g : CallGraph} {shared shared' : Shared} {nodes : List String}
    (h : Sweep known search shared g.nodes.keys nodes shared') (hnone : known shared = ∅)
    (hsearch : ∀ shared root nodes shared', g.contains root = true → root ∉ known shared →
      search shared root nodes shared' →
      root ∈ nodes ∧ Enters g (known shared) nodes (known shared')) :
    nodes.Perm g.nodes.keys ∧ ∀ v, v ∈ known shared' ↔ g.contains v = true := by
  obtain ⟨henters, hroots⟩ := h.enters (fun root => mem_nodes.mp) hsearch
  have hknown : ∀ v, v ∈ known shared' ↔ v ∈ nodes := by
    intro v
    rw [henters.seen_eq, hnone, Set.empty_union, Set.mem_ofPred_eq]
  have hnodes : ∀ v, v ∈ nodes ↔ g.contains v = true :=
    fun v => ⟨henters.contains v, fun hv => (hknown v).mp (hroots v (mem_nodes.mpr hv))⟩
  refine ⟨?_, fun v => (hknown v).trans (hnodes v)⟩
  refine (List.perm_ext_iff_of_nodup henters.nodup (nodup_of_sorted g.sorted_nodes)).mpr fun v => ?_
  rw [hnodes, mem_nodes]

end

end RiskGate.CallGraph

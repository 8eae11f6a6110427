import RiskGate.CallGraph.Metrics
import RiskGate.Proofs.CallGraph.DepthSearch

/-! # Runs of a session

A session keeps the call graph and the depths that it has computed. No answer shows it.

* `Consistent`, what a session may remember: the graph of its contracts, and the depths that the
  first search for depths leaves;
* `consistent_ask`: one question keeps a session consistent;
* `askAll_fresh`: in a run of any length every question gets the answer of a fresh session.
-/

namespace RiskGate.CallGraph

/-- Searching for depths once more gives the same depths again. -/
theorem maxDepth_again {g : CallGraph} (hg : g.WellFormed) :
    g.maxDepth (g.maxDepth ∅).2 = g.maxDepth ∅ := by
  obtain ⟨order, found, h⟩ := traversal_exists hg
  rw [maxDepth_eq hg h, maxDepth_depthTable hg h]

namespace Session

/-- What a session can be asked for. -/
inductive Question where
  | graph
  | metrics
  deriving DecidableEq

/-- What a session answers. -/
inductive Answer where
  | graph (g : CallGraph)
  | metrics (m : Metrics)

/-- The answer to a question, and the session afterwards. -/
def ask (s : Session) : Question → Except LinkError Answer × Session
  | .graph => (s.graph.1.map .graph, s.graph.2)
  | .metrics => (s.metrics.1.map .metrics, s.metrics.2)

/-- The answers to a list of questions asked in turn, and the session afterwards. -/
def askAll (s : Session) : List Question → List (Except LinkError Answer) × Session
  | [] => ([], s)
  | q :: questions =>
    let (answer, s) := s.ask q
    let (answers, s) := s.askAll questions
    (answer :: answers, s)

/-! ## What a session remembers -/

/-- What a session remembers is what it would compute. -/
structure Consistent (s : Session) : Prop where
  known : ∀ g, s.known = some g → ofContracts s.contracts = .ok g
  depths : s.depths = ∅ ∨ ∃ g, ofContracts s.contracts = .ok g ∧ s.depths = (g.maxDepth ∅).2

theorem consistent_fresh (contracts : List Contract) : Consistent { contracts } where
  known := by
    intro g h
    cases h
  depths := Or.inl rfl

theorem Consistent.currentGraph {s : Session} (h : s.Consistent) :
    s.currentGraph = ofContracts s.contracts := by
  unfold Session.currentGraph
  cases hknown : s.known with
  | none => rfl
  | some g => exact (h.known g hknown).symm

/-- The depths remembered do not show in the search for depths. -/
theorem Consistent.maxDepth {s : Session} (h : s.Consistent) {g : CallGraph}
    (hg : ofContracts s.contracts = .ok g) : g.maxDepth s.depths = g.maxDepth ∅ := by
  rcases h.depths with hempty | ⟨g', hg', hdepths⟩
  · rw [hempty]
  · obtain rfl : g' = g := Except.ok.inj (hg'.symm.trans hg)
    rw [hdepths]
    exact maxDepth_again (wellFormed_of_ofContracts hg)

/-! ## One question -/

@[simp] theorem contracts_ask (s : Session) (q : Question) :
    (s.ask q).2.contracts = s.contracts := by
  cases q with
  | graph =>
      simp only [ask, graph]
      cases s.currentGraph with
      | error e => rfl
      | ok g => rfl
  | metrics =>
      simp only [ask, metrics]
      cases s.currentGraph with
      | error e => rfl
      | ok g => rfl

/-- One question keeps a session consistent. A session that fails to construct its graph is as it
was. -/
theorem consistent_ask {s : Session} (h : s.Consistent) (q : Question) :
    (s.ask q).2.Consistent := by
  cases hg : ofContracts s.contracts with
  | error e =>
      have hsame : (s.ask q).2 = s := by
        cases q with
        | graph => simp only [ask, graph, h.currentGraph, hg]
        | metrics => simp only [ask, metrics, h.currentGraph, hg]
      rw [hsame]
      exact h
  | ok g =>
      -- the graph is known now, whether it was before or not
      have hknown : ∀ g', some g = some g' → ofContracts s.contracts = .ok g' := by
        intro g' hsome
        rw [← Option.some.inj hsome]
        exact hg
      cases q with
      | graph =>
          simp only [ask, graph, h.currentGraph, hg]
          exact ⟨hknown, h.depths⟩
      | metrics =>
          simp only [ask, metrics, h.currentGraph, hg, h.maxDepth hg]
          exact ⟨hknown, Or.inr ⟨g, hg, rfl⟩⟩

/-- A consistent session answers as a fresh one does. -/
theorem Consistent.answer {s : Session} (h : s.Consistent) (q : Question) :
    (s.ask q).1 = (ask { contracts := s.contracts } q).1 := by
  have hfresh := consistent_fresh s.contracts
  cases hg : ofContracts s.contracts with
  | error e =>
      cases q with
      | graph => simp only [ask, graph, h.currentGraph, hfresh.currentGraph, hg]
      | metrics => simp only [ask, metrics, h.currentGraph, hfresh.currentGraph, hg]
  | ok g =>
      cases q with
      | graph => simp only [ask, graph, h.currentGraph, hfresh.currentGraph, hg]
      | metrics =>
          simp only [ask, metrics, h.currentGraph, hfresh.currentGraph, hg, h.maxDepth hg]

/-- A fresh session answers with an error exactly if there is no graph, whatever it is asked. -/
theorem ask_fresh_error_iff {contracts : List Contract} {q : Question} {e : LinkError} :
    (ask { contracts } q).1 = .error e ↔ ofContracts contracts = .error e := by
  have hfresh := (consistent_fresh contracts).currentGraph
  cases hg : ofContracts contracts with
  | error e' =>
      cases q with
      | graph => simp [ask, graph, hfresh, hg, Except.map]
      | metrics => simp [ask, metrics, hfresh, hg, Except.map]
  | ok g =>
      cases q with
      | graph => simp [ask, graph, hfresh, hg, Except.map]
      | metrics => simp [ask, metrics, hfresh, hg, Except.map]

/-! ## Runs -/

@[simp] theorem contracts_askAll (s : Session) (questions : List Question) :
    (s.askAll questions).2.contracts = s.contracts := by
  induction questions generalizing s with
  | nil => rfl
  | cons q questions ih => exact (ih (s.ask q).2).trans (contracts_ask s q)

theorem consistent_askAll {s : Session} (h : s.Consistent) (questions : List Question) :
    (s.askAll questions).2.Consistent := by
  induction questions generalizing s with
  | nil => exact h
  | cons q questions ih => exact ih (consistent_ask h q)

/-- The answers of a run from a consistent session. -/
theorem Consistent.answers {s : Session} (h : s.Consistent) (questions : List Question) :
    (s.askAll questions).1 = questions.map fun q => (ask { contracts := s.contracts } q).1 := by
  induction questions generalizing s with
  | nil => rfl
  | cons q questions ih =>
      have hrest := ih (consistent_ask h q)
      rw [contracts_ask] at hrest
      rw [List.map_cons, ← hrest, ← h.answer q]
      rfl

/-- In every run each question gets the answer that a fresh session gives to it. No question changes
an answer to a later one, and once an answer is an error all later answers are the same error. -/
theorem askAll_fresh (contracts : List Contract) (questions : List Question) :
    (askAll { contracts } questions).1 = questions.map (fun q => (ask { contracts } q).1) ∧
      (∀ q later, let s := (askAll { contracts } questions).2
        ((s.ask q).2.askAll later).1 = (s.askAll later).1) ∧
      ∀ q e later, let s := (askAll { contracts } questions).2
        (s.ask q).1 = .error e → ∀ answer ∈ ((s.ask q).2.askAll later).1, answer = .error e := by
  have hs := consistent_askAll (consistent_fresh contracts) questions
  have hcontracts := contracts_askAll { contracts } questions
  refine ⟨(consistent_fresh contracts).answers questions, ?_, ?_⟩
  · intro q later
    show ((Session.ask _ q).2.askAll later).1 = _
    rw [(consistent_ask hs q).answers later, hs.answers later, contracts_ask]
  · intro q e later s he answer hanswer
    rw [(consistent_ask hs q).answers later, contracts_ask, hcontracts] at hanswer
    obtain ⟨q', -, rfl⟩ := List.mem_map.mp hanswer
    rw [hs.answer q, hcontracts, ask_fresh_error_iff] at he
    exact ask_fresh_error_iff.mpr he

/-- A contract with a call to a function without a name. -/
def unnamed : List Contract :=
  [{ id := "C"
     kind := .concrete
     functions :=
      [{ id := "a"
         visibility := .publicly
         callSites := [{ kind := .internal, target := some ⟨"D", ""⟩, position := 1 }] }] }]

theorem askAll_unnamed :
    ∀ answer ∈ (((ask { contracts := unnamed } .metrics).2).askAll [.graph, .metrics]).1,
      answer = .error (.unnamedTarget "C.a") := by
  have hgraph : ofContracts unnamed = .error (.unnamedTarget "C.a") := by rfl
  obtain ⟨-, -, herror⟩ := askAll_fresh unnamed []
  exact herror .metrics _ [.graph, .metrics] (ask_fresh_error_iff.mpr hgraph)

end Session

end RiskGate.CallGraph

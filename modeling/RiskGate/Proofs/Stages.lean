import Mathlib

/-! # First failures

A computation in stages ends at the first stage that fails, with the error of that stage. Which
stages fail is a question of its own: it can be asked about stages that the computation never
reaches.

* `FirstFailure`: the failure of the first of several stages;
* `exists_firstFailure_iff`: there is one exactly if some stage fails;
* `firstFailure_bind`: a stage and what follows it;
* `findSome?_eq_some_iff_firstFailure`: a search through items that have several stages each;
* `firstFailure_map_append`: a search through items that are a stage each.
-/

namespace RiskGate

/-! ## Results -/

section

variable {ε ε' α β : Type}

theorem bind_eq_ok_iff {x : Except ε α} {f : α → Except ε β} {b : β} :
    (x >>= f) = .ok b ↔ ∃ a, x = .ok a ∧ f a = .ok b := by
  cases x with
  | error e => simp [Bind.bind, Except.bind]
  | ok a => simp [Bind.bind, Except.bind]

theorem bind_eq_error_iff {x : Except ε α} {f : α → Except ε β} {e : ε} :
    (x >>= f) = .error e ↔ x = .error e ∨ ∃ a, x = .ok a ∧ f a = .error e := by
  cases x with
  | error cause => simp [Bind.bind, Except.bind]
  | ok a => simp [Bind.bind, Except.bind]

theorem mapError_eq_ok_iff {x : Except ε α} {f : ε → ε'} {a : α} :
    x.mapError f = .ok a ↔ x = .ok a := by
  cases x with
  | error e => simp [Except.mapError]
  | ok b => simp [Except.mapError]

theorem mapError_eq_error_iff {x : Except ε α} {f : ε → ε'} {e : ε'} :
    x.mapError f = .error e ↔ ∃ cause, x = .error cause ∧ f cause = e := by
  cases x with
  | error cause => simp [Except.mapError]
  | ok a => simp [Except.mapError]

end

/-! ## Stages -/

section

variable {σ ε α β : Type} {failsAt : σ → ε → Prop}

/-- `e` is the failure at the first of the stages, in their order, at which something fails. -/
def FirstFailure (order : List σ) (failsAt : σ → ε → Prop) (e : ε) : Prop :=
  ∃ before stage after, order = before ++ stage :: after ∧ failsAt stage e ∧
    ∀ earlier ∈ before, ∀ e', ¬ failsAt earlier e'

theorem not_firstFailure_nil {e : ε} : ¬ FirstFailure [] failsAt e := by
  rintro ⟨before, stage, after, horder, -⟩
  exact absurd horder.symm (List.append_ne_nil_of_right_ne_nil _ (List.cons_ne_nil _ _))

/-- Either the first stage fails, or it does not and the others decide. -/
theorem firstFailure_cons {stage : σ} {order : List σ} {e : ε} :
    FirstFailure (stage :: order) failsAt e ↔
      failsAt stage e ∨ (∀ e', ¬ failsAt stage e') ∧ FirstFailure order failsAt e := by
  constructor
  · rintro ⟨before, failed, after, horder, hfails, hbefore⟩
    -- before the failing stage there is nothing, or this stage and more
    cases before with
    | nil =>
      cases horder
      exact .inl hfails
    | cons first before =>
      cases horder
      refine .inr ⟨hbefore stage List.mem_cons_self, before, failed, after, rfl, hfails, ?_⟩
      exact fun earlier hearlier => hbefore earlier (List.mem_cons_of_mem _ hearlier)
  · rintro (hfails | ⟨hpasses, before, failed, after, rfl, hfails, hbefore⟩)
    · exact ⟨[], stage, order, rfl, hfails, fun _ hearlier => nomatch hearlier⟩
    · refine ⟨stage :: before, failed, after, rfl, hfails, ?_⟩
      intro earlier hearlier
      rcases List.mem_cons.mp hearlier with rfl | hearlier
      · exact hpasses
      · exact hbefore earlier hearlier

theorem firstFailure_singleton {stage : σ} {e : ε} :
    FirstFailure [stage] failsAt e ↔ failsAt stage e := by
  simp [firstFailure_cons, not_firstFailure_nil]

theorem firstFailure_append {before after : List σ} {e : ε} :
    FirstFailure (before ++ after) failsAt e ↔
      FirstFailure before failsAt e ∨
        (∀ stage ∈ before, ∀ e', ¬ failsAt stage e') ∧ FirstFailure after failsAt e := by
  induction before with
  | nil => simp [not_firstFailure_nil]
  | cons stage before ih =>
    rw [List.cons_append, firstFailure_cons, firstFailure_cons, ih, List.forall_mem_cons]
    tauto

theorem exists_firstFailure_iff {order : List σ} :
    (∃ e, FirstFailure order failsAt e) ↔ ∃ stage ∈ order, ∃ e, failsAt stage e := by
  induction order with
  | nil => simp [not_firstFailure_nil]
  | cons stage order ih =>
    simp only [firstFailure_cons, List.exists_mem_cons_iff, ← ih]
    -- a stage that fails comes first; one that does not leaves it to the others
    by_cases hstage : ∃ e, failsAt stage e
    · rcases hstage with ⟨e, he⟩
      exact ⟨fun _ => .inl ⟨e, he⟩, fun _ => ⟨e, .inl he⟩⟩
    · have hpasses : ∀ e, ¬ failsAt stage e := fun e he => hstage ⟨e, he⟩
      simp [hpasses]

/-- A search for the first item with an error finds the first failure of all stages, if what it
finds for an item is the first failure of the stages of that item. -/
theorem findSome?_eq_some_iff_firstFailure {error? : α → Option ε} {stages : α → List σ}
    {items : List α} {e : ε}
    (h : ∀ item ∈ items, ∀ e, error? item = some e ↔ FirstFailure (stages item) failsAt e) :
    items.findSome? error? = some e ↔ FirstFailure (items.flatMap stages) failsAt e := by
  induction items with
  | nil => simp [not_firstFailure_nil]
  | cons item items ih =>
    rcases List.forall_mem_cons.mp h with ⟨hitem, hitems⟩
    have hsome : (∃ e, error? item = some e) ↔ ∃ stage ∈ stages item, ∃ e, failsAt stage e := by
      simp only [hitem, exists_firstFailure_iff]
    rw [List.flatMap_cons, firstFailure_append, ← hitem, List.findSome?_cons]
    cases hfirst : error? item with
    | some cause =>
      -- some stage of the item fails, so the other items have no say
      rcases hsome.mp ⟨cause, hfirst⟩ with ⟨stage, hstage, e', hfails⟩
      have hsilent : ¬ ∀ stage ∈ stages item, ∀ e', ¬ failsAt stage e' :=
        fun hpasses => hpasses stage hstage e' hfails
      simp [hsilent]
    | none =>
      have hpasses : ∀ stage ∈ stages item, ∀ e', ¬ failsAt stage e' := by
        intro stage hstage e' hfails
        rcases hsome.mpr ⟨stage, hstage, e', hfails⟩ with ⟨cause, hcause⟩
        rw [hfirst] at hcause
        cases hcause
      rw [and_iff_right hpasses, ← ih hitems]
      simp

/-- The first item whose stage fails decides; if there is none, the stages after the items do. -/
theorem firstFailure_map_append {p : α → Bool} {stage : α → σ} {items : List α} {after : List σ}
    {e : ε} (hp : ∀ item, p item = true ↔ ∃ e, failsAt (stage item) e) :
    FirstFailure (items.map stage ++ after) failsAt e ↔
      match items.find? p with
      | some item => failsAt (stage item) e
      | none => FirstFailure after failsAt e := by
  induction items with
  | nil => rfl
  | cons item items ih =>
    rw [List.map_cons, List.cons_append, firstFailure_cons, ih, List.find?_cons]
    cases hitem : p item with
    | true =>
      have hfails := (hp item).mp hitem
      simp only [or_iff_left_iff_imp, and_imp]
      exact fun hpasses => absurd hfails (not_exists.mpr hpasses)
    | false =>
      have hpasses : ∀ e, ¬ failsAt (stage item) e := by
        rw [← not_exists, ← hp, hitem]
        exact Bool.false_ne_true
      simp only [hpasses, false_or, not_false_eq_true, implies_true, true_and]

/-- A computation fails as its first stage does, or else as what follows. -/
theorem firstFailure_bind {x : Except ε α} {f : α → Except ε β} {stage : σ} {order : List σ}
    {e : ε} (hx : ∀ e, x = .error e ↔ failsAt stage e)
    (hf : ∀ a, x = .ok a → (f a = .error e ↔ FirstFailure order failsAt e)) :
    (x >>= f) = .error e ↔ FirstFailure (stage :: order) failsAt e := by
  rw [firstFailure_cons]
  simp only [← hx]
  cases x with
  | error cause => simp [Bind.bind, Except.bind]
  | ok a => simpa [Bind.bind, Except.bind] using hf a rfl

end

end RiskGate

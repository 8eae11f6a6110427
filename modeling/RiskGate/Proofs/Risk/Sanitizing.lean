import RiskGate.Proofs.Risk.Range

/-! # Sanitized probabilities

Sanitizing is a projection onto the numbers between 0 and 1: it changes what lies outside and
nothing else, and doing it again changes nothing.

* `Probabilities.not_mem_iff`: the values that it changes;
* `Probabilities.sanitized_sanitized` and `Probabilities.needsSanitizing_sanitized`: once is enough;
* `Probabilities.sanitized_projection`: the projection, whether it reports a change, and that an
  assessment does not see the difference.
-/

namespace RiskGate

open Binary64

namespace Probabilities

/-- Not to lie between 0 and 1 is not to be a number, to be infinite, or to lie below or above. -/
theorem not_mem_iff {value : Binary64} : ¬ (0 ≤ value ∧ value ≤ 1) ↔
    value = .nan ∨ (∃ negative, value = .infinity negative) ∨ value < 0 ∨ 1 < value := by
  have hone := ne_nan_of_isFinite isFinite_one
  constructor
  · intro houtside
    by_cases hnan : value = .nan
    · exact .inl hnan
    · by_cases hnonneg : 0 ≤ value
      · have habove : ¬ value ≤ 1 := fun h => houtside ⟨hnonneg, h⟩
        exact .inr (.inr (.inr ((not_le hnan hone).mp habove)))
      · exact .inr (.inr (.inl ((not_le zero_ne_nan hnan).mp hnonneg)))
  · rintro (rfl | ⟨negative, rfl⟩ | hbelow | habove) hmem
    · exact (le_iff.mp hmem.1).2.1 rfl
    · have hfinite := isFinite_of_mem hmem
      simp [infinity, ofMagnitude, isFinite] at hfinite
    · exact (not_lt (lt_iff.mp hbelow).1 zero_ne_nan).mpr hmem.1 hbelow
    · exact (not_lt hone (lt_iff.mp habove).2.1).mpr hmem.2 habove

theorem sanitized_sanitized (p : Probabilities) : p.sanitized.sanitized = p.sanitized := by
  have honce : (Option.map sanitize ∘ Option.map sanitize) = Option.map sanitize := by
    funext value
    cases value with
    | none => rfl
    | some value => exact congrArg some (sanitize_sanitize value)
  rw [sanitized, sanitized, PerCategory.map_map, honce]

theorem needsSanitizing_iff {p : Probabilities} :
    p.needsSanitizing = true ↔ ∃ entry ∈ p.entries, ¬ (0 ≤ entry.2 ∧ entry.2 ≤ 1) := by
  simp only [needsSanitizing, List.any_eq_true, decide_eq_true_eq, ne_eq, sanitize_eq_self_iff]

theorem needsSanitizing_sanitized (p : Probabilities) : p.sanitized.needsSanitizing = false := by
  rw [← Bool.not_eq_true, needsSanitizing_iff]
  rintro ⟨entry, hentry, houtside⟩
  exact houtside (p.entries_sanitized_mem entry hentry)

/-- Sanitizing keeps which categories are given, leaves only numbers between 0 and 1, and keeps
those that were there as they are, a negative zero among them. It reports a change exactly if a
value was not a number, infinite, below 0 or above 1. Doing it again does nothing and reports
nothing, and the assessment is the same whether or not it was done before. -/
theorem sanitized_projection (p : Probabilities) :
    p.sanitized.entries.map (·.1) = p.entries.map (·.1) ∧
    (∀ entry ∈ p.sanitized.entries, 0 ≤ entry.2 ∧ entry.2 ≤ 1) ∧
    (∀ c value, PerCategory.get p c = some value → 0 ≤ value → value ≤ 1 →
      PerCategory.get p.sanitized c = some value) ∧
    (p.needsSanitizing = true ↔ ∃ entry ∈ p.entries, entry.2 = .nan ∨
      (∃ negative, entry.2 = .infinity negative) ∨ entry.2 < 0 ∨ 1 < entry.2) ∧
    p.sanitized.sanitized = p.sanitized ∧ p.sanitized.needsSanitizing = false ∧
    ∀ weights importance, RiskAssessment.calculate weights p.sanitized importance =
      RiskAssessment.calculate weights p importance := by
  refine ⟨?_, p.entries_sanitized_mem, ?_, ?_, p.sanitized_sanitized,
    p.needsSanitizing_sanitized, ?_⟩
  · rw [entries_sanitized, List.map_map]
    rfl
  · intro c value hget hlo hhi
    rw [get_sanitized, hget, Option.map_some, sanitize_of_mem hlo hhi]
  · simp only [needsSanitizing_iff, not_mem_iff]
  · intro weights importance
    simp only [RiskAssessment.calculate, sanitized_sanitized]

/-- A probability that is not a number, one that is infinite, a negative zero and one above 1. -/
def unruly : Probabilities where
  reentrancy := some .nan
  uncheckedExternalCall := some (.infinity true)
  accessControl := some .negZero
  dangerousConstruct := some 1.5

theorem sanitized_unruly :
    (PerCategory.get unruly .accessControl = some negZero ∧ 0 ≤ negZero ∧ negZero ≤ 1) ∧
      PerCategory.get unruly.sanitized .accessControl = some negZero ∧
      unruly.sanitized = ⟨some 0, some 0, some negZero, some 1⟩ ∧
      unruly.needsSanitizing = true := by
  have hgiven : PerCategory.get unruly .accessControl = some negZero ∧ 0 ≤ negZero ∧
      negZero ≤ 1 ∧ unruly.sanitized = ⟨some 0, some 0, some negZero, some 1⟩ := by
    decide +kernel
  rcases hgiven with ⟨hget, hlo, hhi, hvalues⟩
  rcases sanitized_projection unruly with ⟨-, -, hkept, hreported, -, -, -⟩
  have hnan : (Category.reentrancy, Binary64.nan) ∈ unruly.entries := mem_entries.mpr rfl
  exact ⟨⟨hget, hlo, hhi⟩, hkept _ _ hget hlo hhi, hvalues, hreported.mpr ⟨_, hnan, .inl rfl⟩⟩

end Probabilities

end RiskGate

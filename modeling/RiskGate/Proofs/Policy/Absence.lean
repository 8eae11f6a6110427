import RiskGate.Proofs.Risk.Sanitizing

/-! # Absent categories

A category without a probability counts as one with probability 0. The score reads it as 0; factors,
detection and justification go through the given probabilities only, and a probability of 0 is above
none of their thresholds. Only the confidence tells the two apart, as it is a mean over what is
given.

* `Probabilities.SameReading`: two classifiers say the same, absent categories read as 0;
* `RiskAssessment.score_eq`, `RiskAssessment.riskFactors_eq` and `Enforcement.enforce_eq`: nothing
  but that reading matters for what they compute;
* `Enforcement.ofAssessment_insert_zero`: an absent category may be given as 0.
-/

namespace RiskGate

open Binary64

theorem mentionedAbove_nonneg : 0 ≤ mentionedAbove := by decide +kernel

theorem notableProbability_nonneg : 0 ≤ notableProbability := by decide +kernel

/-! ## Readings -/

namespace Probabilities

/-- The same probability is read for every category, be it given or 0 for want of one. -/
def SameReading (p q : Probabilities) : Prop := ∀ c, p.probability c = q.probability c

variable {p q : Probabilities}

theorem SameReading.sanitized (h : SameReading p q) : SameReading p.sanitized q.sanitized := by
  intro c
  rw [probability_sanitized, probability_sanitized, h c]

theorem SameReading.filter_entries (h : SameReading p q) {threshold : Binary64}
    (hthreshold : 0 ≤ threshold) :
    p.entries.filter (fun (_, value) => threshold < value) =
      q.entries.filter (fun (_, value) => threshold < value) := by
  have habove : (fun c => (PerCategory.get p c).any (threshold < ·)) =
      fun c => (PerCategory.get q c).any (threshold < ·) := by
    funext c
    rw [Bool.eq_iff_iff, any_get_iff hthreshold, any_get_iff hthreshold, h c]
  rw [Probabilities.filter_entries, Probabilities.filter_entries, habove, funext h]

theorem sameReading_insert_zero {c : Category} (habsent : PerCategory.get p c = none) :
    SameReading (p.insert c 0) p := by
  intro d
  rw [probability, probability, get_insert]
  split_ifs with hd
  · rw [hd, habsent, zero_eq]
    rfl
  · rfl

theorem sanitized_insert (p : Probabilities) (c : Category) (value : Binary64) :
    (p.insert c value).sanitized = p.sanitized.insert c (sanitize value) :=
  PerCategory.map_set _ p c (some value)

end Probabilities

/-! ## What depends on the reading alone -/

section

open Probabilities

variable {p q : Probabilities}

theorem RiskAssessment.score_eq (h : SameReading p q) (weights : Severities) :
    score weights p = score weights q := by
  rw [score, score, funext h]

theorem RiskAssessment.riskFactors_eq (h : SameReading p q) (importance : Option Importance) :
    riskFactors p importance = riskFactors q importance := by
  unfold riskFactors
  rw [h.filter_entries notableProbability_nonneg]

theorem Enforcement.namedWithPercent_eq (h : SameReading p q) {threshold : Binary64}
    (hthreshold : 0 ≤ threshold) : namedWithPercent p threshold = namedWithPercent q threshold := by
  rw [namedWithPercent, namedWithPercent, h.filter_entries hthreshold]

theorem Enforcement.justify_eq (h : SameReading p q) (decision : Decision) (score : Binary64) :
    justify decision score p = justify decision score q := by
  unfold justify
  rw [namedWithPercent_eq h mentionedAbove_nonneg, namedWithPercent_eq h detectedAbove_nonneg]

theorem Enforcement.enforce_eq (h : SameReading p q) (thresholds : Thresholds)
    (score : Binary64) : enforce thresholds score p = enforce thresholds score q := by
  rw [enforce, enforce, above, above, h.filter_entries detectedAbove_nonneg, justify_eq h]

end

/-! ## Outcomes -/

namespace Enforcement

/-- A category without a probability may as well be given as 0. Score, risk factors, band and the
whole outcome stay the same, for any weights and thresholds; of the assessment only the listed
probabilities, by that one entry, and the confidence can tell. -/
theorem ofAssessment_insert_zero (weights : Severities) (thresholds : Thresholds)
    (importance : Option Importance) {p : Probabilities} {c : Category}
    (habsent : PerCategory.get p c = none) :
    let risk := RiskAssessment.calculate weights p importance
    let risk' := RiskAssessment.calculate weights (p.insert c 0) importance
    risk'.overallScore = risk.overallScore ∧ risk'.topRiskFactors = risk.topRiskFactors ∧
      risk'.band = risk.band ∧ ofAssessment thresholds risk' = ofAssessment thresholds risk ∧
      risk'.probabilities = risk.probabilities.insert c 0 := by
  intro risk risk'
  have hreading := (Probabilities.sameReading_insert_zero habsent).sanitized
  have hscore : risk'.overallScore = risk.overallScore := RiskAssessment.score_eq hreading weights
  refine ⟨hscore, RiskAssessment.riskFactors_eq hreading importance, ?_, ?_, ?_⟩
  · rw [RiskAssessment.band, RiskAssessment.band, hscore]
  · rw [ofAssessment, ofAssessment, hscore]
    exact enforce_eq hreading thresholds _
  · have hstored := Probabilities.sanitized_insert p c 0
    rw [Probabilities.sanitize_of_mem (le_refl zero_ne_nan) zero_le_one] at hstored
    exact hstored

/-- Where a second category is given as 0, the classifier has said more, and the confidence is
greater. -/
theorem ofAssessment_insert_zero_single :
    let profile : Profile := {}
    let p : Probabilities := .insert .empty .reentrancy 0.75
    let q : Probabilities := p.insert .accessControl 0
    PerCategory.get p .accessControl = none ∧
      ofAssessment profile.thresholds (.calculate profile.weights q none) =
        ofAssessment profile.thresholds (.calculate profile.weights p none) ∧
      (RiskAssessment.calculate profile.weights p none).confidence = 0.5 ∧
      (RiskAssessment.calculate profile.weights q none).confidence = 0.75 := by
  intro profile p q
  have hgiven : PerCategory.get p .accessControl = none ∧
      (RiskAssessment.calculate profile.weights p none).confidence = 0.5 ∧
      (RiskAssessment.calculate profile.weights q none).confidence = 0.75 := by
    decide +kernel
  rcases hgiven with ⟨habsent, hconfidence⟩
  rcases ofAssessment_insert_zero profile.weights profile.thresholds none habsent with
    ⟨-, -, -, hsame, -⟩
  exact ⟨habsent, hsame, hconfidence⟩

end Enforcement

end RiskGate

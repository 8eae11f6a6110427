import RiskGate.Policy.Enforcement
import RiskGate.Proofs.Risk.Score

/-! # Monotone verdicts

Greater probabilities never lower what an accepted profile says about a unit.

* `weightedScore_mono`: scores, also where the total of the weights or the scaled sum overflows;
* `RiskBand.ofScore_mono` and `Decision.ofScore_mono`: bands and verdicts, for any thresholds;
* `Enforcement.ofAssessment_mono`: whole outcomes, from `calculate` to the exit code.
-/

namespace RiskGate

open Binary64

/-! ## Probabilities -/

namespace Probabilities

/-- Probabilities whose given values are finite. -/
def Finite (p : Probabilities) : Prop := ∀ entry ∈ p.entries, entry.2.isFinite = true

instance (p : Probabilities) : Decidable p.Finite :=
  inferInstanceAs (Decidable (∀ entry ∈ p.entries, entry.2.isFinite = true))

theorem Finite.probability {p : Probabilities} (hp : p.Finite) (c : Category) :
    (p.probability c).isFinite = true := by
  unfold Probabilities.probability
  cases hget : PerCategory.get p c with
  | none => decide
  | some value => exact hp (c, value) (mem_entries.mpr hget)

theorem sanitize_mono {x y : Binary64} (hx : x.isFinite = true) (hy : y.isFinite = true)
    (h : x ≤ y) : sanitize x ≤ sanitize y := by
  unfold sanitize
  rw [if_pos hx, if_pos hy]
  exact clamp_mono zero_le_one h

end Probabilities

/-! ## Scores -/

theorem Scalar.clampScore_eq (x : Binary64) : Scalar.clampScore x = x.clamp 0 10 := by
  simp [Scalar.clampScore, clamp, Scalar.lt, Scalar.zero, Scalar.ten]

section

variable {weights : Severities} {p q : PerCategory Binary64}

theorem weightedSum_mono (hweights : weights.Accepted) (htotal : weights.total.isFinite = true)
    (hp : ∀ c, 0 ≤ p.get c ∧ p.get c ≤ 1) (hq : ∀ c, 0 ≤ q.get c ∧ q.get c ≤ 1)
    (h : ∀ c, p.get c ≤ q.get c) : weightedSum weights p ≤ weightedSum weights q := by
  have hsum := (weightedSum_le_total hweights hq htotal).1
  refine (Scalar.sum_le_sum (fun c _ => ⟨(product_mem hweights hp c).2.1, ?_⟩) hsum).2
  obtain ⟨hfinite, hnonneg⟩ := hweights c
  exact mul_le_mul_right (isFinite_of_mem (hp c)) (isFinite_of_mem (hq c)) hfinite hnonneg (h c)

/-- Greater probabilities never lower the score. -/
theorem weightedScore_mono (hweights : weights.Accepted)
    (hp : ∀ c, 0 ≤ p.get c ∧ p.get c ≤ 1) (hq : ∀ c, 0 ≤ q.get c ∧ q.get c ≤ 1)
    (h : ∀ c, p.get c ≤ q.get c) : weightedScore weights p ≤ weightedScore weights q := by
  by_cases hguard : 0 < weights.total ∧ weights.total.isFinite = true
  · obtain ⟨hpositive, htotal⟩ := hguard
    have hsum := weightedSum_mono hweights htotal hp hq h
    have hscaled := mul_le_mul_right (weightedSum_le_total hweights hp htotal).1
      (weightedSum_le_total hweights hq htotal).1 isFinite_ten zero_le_ten hsum
    rw [weightedScore_eq, weightedScore_eq, if_pos ⟨hpositive, htotal⟩,
      if_pos ⟨hpositive, htotal⟩, Scalar.clampScore_eq, Scalar.clampScore_eq]
    exact clamp_mono zero_le_ten (div_le_div_right htotal hpositive hscaled)
  · -- without a total to divide by both scores are 0
    rw [weightedScore_eq, weightedScore_eq, if_neg hguard, if_neg hguard]
    exact le_refl zero_ne_nan

end

/-! ## Bands and verdicts -/

theorem RiskBand.ofScore_mono {x y : Binary64} (h : x ≤ y) :
    (ofScore x).rank ≤ (ofScore y).rank := by
  have hbelow : ∀ {bound}, y < bound → x < bound := lt_of_le_of_lt h
  unfold ofScore
  split_ifs <;> simp_all [rank]

namespace Decision

/-- From the most lenient verdict to the strictest. -/
protected def le : Decision → Decision → Prop
  | .allow, _ => True
  | .warn, verdict => verdict ≠ .allow
  | .block, verdict => verdict = .block

instance : LE Decision := ⟨Decision.le⟩

theorem allow_le (verdict : Decision) : allow ≤ verdict := trivial

theorem le_block (verdict : Decision) : verdict ≤ block := by
  cases verdict with
  | allow => exact trivial
  | warn => exact fun h => nomatch h
  | block => exact rfl

theorem ofScore_mono (thresholds : Thresholds) {x y : Binary64} (h : x ≤ y) :
    ofScore thresholds x ≤ ofScore thresholds y := by
  unfold ofScore
  by_cases hallow : x < thresholds.allowBelow
  · rw [if_pos hallow]
    exact allow_le _
  · have hallow' : ¬ y < thresholds.allowBelow := fun hy => hallow (lt_of_le_of_lt h hy)
    rw [if_neg hallow, if_neg hallow']
    by_cases hblock : y < thresholds.blockAt
    · rw [if_pos hblock, if_pos (lt_of_le_of_lt h hblock)]
      exact fun h => nomatch h
    · rw [if_neg hblock]
      exact le_block _

theorem exitCode_mono {a b : Decision} (h : a ≤ b) : a.exitCode ≤ b.exitCode := by
  cases a with
  | allow => exact Nat.zero_le _
  | warn =>
    cases b with
    | allow => exact absurd rfl h
    | warn => exact Nat.le_refl _
    | block => exact Nat.le_succ _
  | block =>
    obtain rfl : b = .block := h
    exact Nat.le_refl _

end Decision

/-! ## Outcomes -/

theorem half_spec : (0.5 : Binary64).isFinite = true ∧ 0 < (0.5 : Binary64) := by decide +kernel

theorem detectedAbove_nonneg : 0 ≤ detectedAbove := le_of_lt half_spec.2

namespace Enforcement

/-- The first outcome is no stricter than the second in anything that it says. -/
structure NoStricter (a b : Enforcement) : Prop where
  riskScore : a.riskScore ≤ b.riskScore
  decision : a.decision ≤ b.decision
  exitCode : a.exitCode ≤ b.exitCode
  riskBand : a.riskBand.rank ≤ b.riskBand.rank
  detected : ∀ c ∈ a.detectedVulnerabilities, c ∈ b.detectedVulnerabilities

theorem enforce_mono (thresholds : Thresholds) {x y : Binary64} {p q : Probabilities}
    (hscore : x ≤ y) (h : ∀ c, p.probability c ≤ q.probability c) :
    NoStricter (enforce thresholds x p) (enforce thresholds y q) := by
  have hdecision := Decision.ofScore_mono thresholds hscore
  refine ⟨hscore, hdecision, Decision.exitCode_mono hdecision, RiskBand.ofScore_mono hscore, ?_⟩
  intro c hc
  have habove := (Probabilities.mem_above detectedAbove_nonneg).mp hc
  exact (Probabilities.mem_above detectedAbove_nonneg).mpr (lt_of_lt_of_le habove (h c))

/-- Under an accepted profile greater probabilities never lower the score, its band, the verdict or
the exit code, and whatever was detected stays detected. -/
theorem ofAssessment_mono {profile : Profile} (hcheck : profile.check = .ok ())
    {p q : Probabilities} (hp : p.Finite) (hq : q.Finite)
    (h : ∀ c, p.probability c ≤ q.probability c) (importance importance' : Option Importance) :
    let risk := RiskAssessment.calculate profile.weights p importance
    let risk' := RiskAssessment.calculate profile.weights q importance'
    risk.overallScore ≤ risk'.overallScore ∧ risk.band.rank ≤ risk'.band.rank ∧
      NoStricter (ofAssessment profile.thresholds risk)
        (ofAssessment profile.thresholds risk') := by
  intro risk risk'
  obtain ⟨hweights, -⟩ := Profile.weights_of_check hcheck
  have hsanitized : ∀ c, p.sanitized.probability c ≤ q.sanitized.probability c := by
    intro c
    rw [Probabilities.probability_sanitized, Probabilities.probability_sanitized]
    exact Probabilities.sanitize_mono (hp.probability c) (hq.probability c) (h c)
  have hscore : risk.overallScore ≤ risk'.overallScore := by
    apply weightedScore_mono hweights p.sanitized_mem q.sanitized_mem
    intro c
    rw [PerCategory.get_of, PerCategory.get_of]
    exact hsanitized c
  exact ⟨hscore, RiskBand.ofScore_mono hscore, enforce_mono profile.thresholds hscore hsanitized⟩

theorem ofAssessment_mono_default :
    let profile : Profile := {}
    let p : Probabilities := .insert .empty .reentrancy 0.75
    let q : Probabilities := .insert (.insert .empty .reentrancy 1.5) .accessControl 1
    (profile.check = .ok () ∧ p.Finite ∧ q.Finite ∧ ∀ c, p.probability c ≤ q.probability c) ∧
      NoStricter (ofAssessment profile.thresholds (.calculate profile.weights p none))
        (ofAssessment profile.thresholds (.calculate profile.weights q none)) := by
  intro profile p q
  have hgiven : profile.check = .ok () ∧ p.Finite ∧ q.Finite ∧
      ∀ c, p.probability c ≤ q.probability c := by
    decide +kernel
  obtain ⟨hcheck, hp, hq, h⟩ := hgiven
  exact ⟨⟨hcheck, hp, hq, h⟩, (ofAssessment_mono hcheck hp hq h none none).2.2⟩

end Enforcement

end RiskGate

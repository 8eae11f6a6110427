import RiskGate.Proofs.Risk.Score

/-! # Exact scores

Without rounding the score is ten times the mean of the probabilities, weighted by severity. The
formula is the one that doubles are put into; only the numbers are exact.

* `Binary64.toRat`, the exact value of a double;
* `weightedScore_eq_centerMass`: the exact score as a weighted mean, with no part of it left to the
  clamp;
* `centerMass_eq_zero_iff` and `centerMass_eq_one_iff`: when a weighted mean is at the end of its
  range;
* `exactScore_weightedMean`: exact scores under an accepted profile.
-/

namespace RiskGate

/-! ## Exact values -/

namespace Binary64

/-- The exact value of a finite double. -/
def toRat (x : Binary64) : ℚ := x.value / unitsOfOne

theorem unitsOfOne_pos_rat : (0 : ℚ) < unitsOfOne := Nat.cast_pos.mpr unitsOfOne_pos

theorem toRat_le_toRat {x y : Binary64} (h : x ≤ y) : x.toRat ≤ y.toRat := by
  have hvalue : x.value ≤ y.value := value_le_value_iff.mpr (le_iff.mp h).2.2
  exact div_le_div_of_nonneg_right (Int.cast_le.mpr hvalue) unitsOfOne_pos_rat.le

theorem toRat_zero : (0 : Binary64).toRat = 0 := by
  rw [toRat, value_zero, Int.cast_zero, zero_div]

theorem toRat_one : (1 : Binary64).toRat = 1 := by
  rw [toRat, value_one, Int.cast_natCast, div_self unitsOfOne_pos_rat.ne']

theorem toRat_pos {x : Binary64} (h : 0 < x) : 0 < x.toRat :=
  div_pos (Int.cast_pos.mpr (pos_iff.mp h).2) unitsOfOne_pos_rat

end Binary64

/-- Rational numbers are computed with exactly. -/
instance : Scalar ℚ where
  emptySum := 0
  zero := 0
  ten := 10
  lt x y := x < y
  isFinite _ := true

/-! ## The formula over exact numbers -/

theorem Scalar.sum_categories (f : Category → ℚ) :
    Scalar.sum (Category.all.map f) = ∑ c, f c :=
  List.sum_eq_foldl.symm

theorem weightedSum_exact (w q : Category → ℚ) :
    weightedSum (.of w) (.of q) = ∑ c, w c * q c := by
  simp only [weightedSum, PerCategory.get_of, Scalar.sum_categories]
  exact Finset.sum_congr rfl fun c _ => mul_comm _ _

theorem total_exact (w : Category → ℚ) :
    Scalar.sum (PerCategory.of w).toList = ∑ c, w c := by
  simp only [PerCategory.toList, PerCategory.get_of, Scalar.sum_categories]

/-- Scaled and divided by the total, the weighted sum is ten times the mean. -/
theorem quotient_exact (w q : Category → ℚ) :
    weightedSum (.of w) (.of q) * 10 / Scalar.sum (PerCategory.of w).toList =
      10 * Finset.univ.centerMass w q := by
  rw [weightedSum_exact, total_exact, Finset.centerMass]
  simp only [smul_eq_mul]
  ring

theorem Scalar.clampScore_of_mem {x : ℚ} (hlo : 0 ≤ x) (hhi : x ≤ 10) : clampScore x = x := by
  have hbelow : Scalar.lt x Scalar.zero = false := decide_eq_false hlo.not_gt
  have habove : Scalar.lt Scalar.ten x = false := decide_eq_false hhi.not_gt
  rw [clampScore, hbelow, habove]
  rfl

/-! ## Weighted means -/

section

variable {w q : Category → ℚ} (hw : ∀ c, 0 ≤ w c) (htotal : 0 < ∑ c, w c)

include hw htotal

/-- A weighted mean lies between any bounds of the values. -/
theorem centerMass_mem {lo hi : ℚ} (hq : ∀ c, lo ≤ q c ∧ q c ≤ hi) :
    lo ≤ Finset.univ.centerMass w q ∧ Finset.univ.centerMass w q ≤ hi := by
  constructor
  · refine le_trans ?_ (Finset.inf_le_centerMass (fun c _ => hw c) htotal)
    exact Finset.le_inf' _ _ fun c _ => (hq c).1
  · refine le_trans (Finset.centerMass_le_sup (fun c _ => hw c) htotal) ?_
    exact Finset.sup'_le _ _ fun c _ => (hq c).2

/-- The exact score is ten times the mean of probabilities: neither guard nor clamp has a part in
it. -/
theorem weightedScore_eq_centerMass (hq : ∀ c, 0 ≤ q c ∧ q c ≤ 1) :
    weightedScore (.of w) (.of q) = 10 * Finset.univ.centerMass w q := by
  have hguard : (Scalar.lt Scalar.zero (Scalar.sum (PerCategory.of w).toList) &&
      Scalar.isFinite (Scalar.sum (PerCategory.of w).toList)) = true := by
    rw [total_exact, Bool.and_eq_true]
    exact ⟨decide_eq_true htotal, rfl⟩
  rcases centerMass_mem hw htotal hq with ⟨hlo, hhi⟩
  calc weightedScore (.of w) (.of q)
      = Scalar.clampScore
          (weightedSum (.of w) (.of q) * 10 / Scalar.sum (PerCategory.of w).toList) := if_pos hguard
    _ = Scalar.clampScore (10 * Finset.univ.centerMass w q) := by rw [quotient_exact]
    _ = 10 * Finset.univ.centerMass w q := by
      apply Scalar.clampScore_of_mem
      · linarith
      · linarith

/-- A mean of values from zero on is zero exactly if every value that counts is. -/
theorem centerMass_eq_zero_iff (hq : ∀ c, 0 ≤ q c) :
    Finset.univ.centerMass w q = 0 ↔ ∀ c, 0 < w c → q c = 0 := by
  have hterms : ∀ c ∈ Finset.univ, 0 ≤ w c * q c := fun c _ => mul_nonneg (hw c) (hq c)
  have hterm : ∀ c, w c * q c = 0 ↔ (0 < w c → q c = 0) := by
    intro c
    rw [mul_eq_zero, (hw c).lt_iff_ne', ne_eq, or_iff_not_imp_left]
  simp only [Finset.centerMass, smul_eq_mul, mul_eq_zero, inv_eq_zero, htotal.ne', false_or,
    Finset.sum_eq_zero_iff_of_nonneg hterms, hterm, Finset.mem_univ, true_imp_iff]

/-- A mean of values up to one is one exactly if every value that counts is. -/
theorem centerMass_eq_one_iff (hq : ∀ c, q c ≤ 1) :
    Finset.univ.centerMass w q = 1 ↔ ∀ c, 0 < w c → q c = 1 := by
  -- what is missing to one has the mean that is missing to one
  have hcomplement : Finset.univ.centerMass w (fun c => 1 - q c) =
      1 - Finset.univ.centerMass w q := by
    simp only [Finset.centerMass, smul_eq_mul, mul_sub, mul_one, Finset.sum_sub_distrib]
    rw [inv_mul_cancel₀ htotal.ne']
  have hzero := centerMass_eq_zero_iff hw htotal (q := fun c => 1 - q c)
    fun c => sub_nonneg.mpr (hq c)
  rw [hcomplement] at hzero
  simpa only [sub_eq_zero, eq_comm (a := (1 : ℚ))] using hzero

end

/-! ## Accepted profiles -/

namespace Severities

/-- The exact values of accepted weights. -/
theorem Accepted.exact_nonneg {weights : Severities} (hweights : weights.Accepted) (c : Category) :
    0 ≤ (PerCategory.get weights c).toRat := by
  rw [← Binary64.toRat_zero]
  exact Binary64.toRat_le_toRat (hweights c).2

/-- Where the rounded total of the weights is positive, so is the exact one. -/
theorem Accepted.exact_total_pos {weights : Severities} (hweights : weights.Accepted)
    (htotal : 0 < weights.total) : 0 < ∑ c, (PerCategory.get weights c).toRat := by
  rcases hweights.total_pos_iff.mp htotal with ⟨c, hpos⟩
  exact Finset.sum_pos' (fun d _ => hweights.exact_nonneg d)
    ⟨c, Finset.mem_univ c, Binary64.toRat_pos hpos⟩

end Severities

theorem Probabilities.exact_mem (p : Probabilities) (c : Category) :
    0 ≤ (p.sanitized.probability c).toRat ∧ (p.sanitized.probability c).toRat ≤ 1 := by
  have hmem := p.sanitized_mem c
  rw [PerCategory.get_of] at hmem
  rw [← Binary64.toRat_zero, ← Binary64.toRat_one]
  exact ⟨Binary64.toRat_le_toRat hmem.1, Binary64.toRat_le_toRat hmem.2⟩

/-- Computed with exactly, the score under an accepted profile is ten times the weighted mean of the
sanitized probabilities. No part of it is left to the clamp, and it lies between ten times the least
and ten times the greatest of them. Only the proportions of the weights count. The score is 10
exactly if every category that counts is certain, and 0 exactly if every one of them is excluded. -/
theorem exactScore_weightedMean {profile : Profile} (hcheck : profile.check = .ok ())
    (p : Probabilities) :
    let w : Category → ℚ := fun c => (PerCategory.get profile.weights c).toRat
    let q : Category → ℚ := fun c => (p.sanitized.probability c).toRat
    let score : ℚ := weightedScore (.of w) (.of q)
    score = 10 * Finset.univ.centerMass w q ∧
    score = weightedSum (.of w) (.of q) * 10 / Scalar.sum (PerCategory.of w).toList ∧
    10 * Finset.univ.inf' Finset.univ_nonempty q ≤ score ∧
    score ≤ 10 * Finset.univ.sup' Finset.univ_nonempty q ∧
    (∀ factor : ℚ, 0 < factor →
      weightedScore (.of fun c => factor * w c) (.of q) = score) ∧
    (score = 10 ↔ ∀ c, 0 < w c → q c = 1) ∧
    (score = 0 ↔ ∀ c, 0 < w c → q c = 0) := by
  intro w q score
  rcases Profile.weights_of_check hcheck with ⟨hweights, hpositive⟩
  have hw : ∀ c, 0 ≤ w c := hweights.exact_nonneg
  have htotal : 0 < ∑ c, w c := hweights.exact_total_pos hpositive
  have hq : ∀ c, 0 ≤ q c ∧ q c ≤ 1 := p.exact_mem
  have hmean : score = 10 * Finset.univ.centerMass w q := weightedScore_eq_centerMass hw htotal hq
  refine ⟨hmean, ?_, ?_, ?_, ?_, ?_, ?_⟩
  · rw [quotient_exact, hmean]
  · rw [hmean]
    have hleast := Finset.inf_le_centerMass (f := q) (fun c _ => hw c) htotal
    linarith
  · rw [hmean]
    have hgreatest := Finset.centerMass_le_sup (f := q) (fun c _ => hw c) htotal
    linarith
  · intro factor hfactor
    have hscaled : 0 < ∑ c, factor * w c := by
      rw [← Finset.mul_sum]
      exact mul_pos hfactor htotal
    rw [weightedScore_eq_centerMass (fun c => mul_nonneg hfactor.le (hw c)) hscaled hq, hmean]
    exact congrArg (10 * ·) (Finset.centerMass_smul_left Finset.univ q hfactor.ne')
  · rw [hmean, ← centerMass_eq_one_iff hw htotal fun c => (hq c).2]
    constructor
    · intro h
      linarith
    · intro h
      rw [h, mul_one]
  · rw [hmean, ← centerMass_eq_zero_iff hw htotal fun c => (hq c).1]
    simp

theorem exactScore_default :
    let profile : Profile := {}
    let p : Probabilities := .insert (.insert .empty .reentrancy 0.5) .accessControl 1.5
    let w : Category → ℚ := fun c => (PerCategory.get profile.weights c).toRat
    let q : Category → ℚ := fun c => (p.sanitized.probability c).toRat
    profile.check = .ok () ∧ weightedScore (.of w) (.of q) = 4 ∧ 0 < (1 / 3 : ℚ) ∧
      weightedScore (.of fun c => 1 / 3 * w c) (.of q) = 4 ∧
      10 * Finset.univ.centerMass w q = 4 := by
  intro profile p w q
  have hgiven : profile.check = .ok () ∧ weightedScore (.of w) (.of q) = 4 := by decide +kernel
  rcases hgiven with ⟨hcheck, hscore⟩
  have hthird : 0 < (1 / 3 : ℚ) := by norm_num
  rcases exactScore_weightedMean hcheck p with ⟨hmean, -, -, -, hscaled, -, -⟩
  exact ⟨hcheck, hscore, hthird, (hscaled _ hthird).trans hscore, hmean.symm.trans hscore⟩

end RiskGate

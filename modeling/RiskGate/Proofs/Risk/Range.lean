import RiskGate.Features.Vector
import RiskGate.Proofs.Policy.Monotonicity

/-! # Numbers in range

The numbers of a report are finite, because each of them lies between bounds or is a count.

* `weightedSum_ne_nan`: weights with a finite total have a weighted sum, be it infinite;
* `RiskAssessment.score_mem`: a score lies between 0 and 10 under all weights;
* `distance_mem`: no probability is further than one half from one half;
* `RiskAssessment.confidenceOf_mem`: a confidence lies between 0 and 1;
* `RiskAssessment.calculate_mem`: both for every assessment;
* `FeatureVector.isFinite_of_mem_flat`: a count is not too great for a double.
-/

namespace RiskGate

open Binary64

/-! ## Score -/

/-- A finite total has finite weights. -/
theorem Severities.isFinite_get {weights : Severities} (htotal : weights.total.isFinite = true)
    (c : Category) : (PerCategory.get weights c).isFinite = true := by
  apply (isFinite_of_isFinite_foldl htotal).2
  exact List.mem_map_of_mem (Category.mem_all c)

/-- Whatever the signs of the weights, a weighted sum of probabilities is a number if the total of
the weights is finite. It may still overflow: weights that cancel in the total need not do so in
the sum. -/
theorem weightedSum_ne_nan {weights : Severities} (htotal : weights.total.isFinite = true)
    {probabilities : PerCategory Binary64}
    (hprobabilities : ∀ c, 0 ≤ probabilities.get c ∧ probabilities.get c ≤ 1) :
    weightedSum weights probabilities ≠ .nan := by
  have hproducts : ∀ x ∈ Category.all.map fun c =>
      probabilities.get c * PerCategory.get weights c, x.isFinite = true := by
    intro x hx
    rcases List.mem_map.mp hx with ⟨c, -, rfl⟩
    rcases hprobabilities c with ⟨hlo, hhi⟩
    exact isFinite_mul_of_le_one hlo hhi (Severities.isFinite_get htotal c)
  exact foldl_add_ne_nan hproducts Binary64.noConfusion

namespace RiskAssessment

/-- The score is a number between 0 and 10, whatever the weights. -/
theorem score_mem (weights : Severities) {p : Probabilities}
    (hp : ∀ c, 0 ≤ (PerCategory.of p.probability).get c ∧
      (PerCategory.of p.probability).get c ≤ 1) :
    0 ≤ score weights p ∧ score weights p ≤ 10 := by
  unfold score
  rw [weightedScore_eq]
  by_cases hguard : 0 < weights.total ∧ weights.total.isFinite = true
  · rcases hguard with ⟨hpositive, htotal⟩
    -- the sum and the scaled sum may be infinite, but they stay numbers, and so does the quotient
    have hsum := weightedSum_ne_nan htotal hp
    have hscaled := mul_ne_nan hsum isFinite_ten (by decide +kernel)
    have hquotient := div_ne_nan hscaled htotal hpositive
    rw [if_pos ⟨hpositive, htotal⟩, Scalar.clampScore_eq]
    exact clamp_mem hquotient zero_le_ten
  · rw [if_neg hguard]
    exact ⟨le_refl zero_ne_nan, zero_le_ten⟩

end RiskAssessment

/-! ## Confidence -/

namespace Binary64

theorem sub_eq (x y : Binary64) : x - y = x + -y := rfl

theorem place_neg (x : Binary64) : (-x).place = -x.place := by
  cases x with
  | nan => rfl
  | number negative magnitude _ =>
    show place (Binary64.neg _) = _
    cases negative <;> simp [Binary64.neg, place, orderKey]

theorem place_abs (x : Binary64) : x.abs.place = x.place.natAbs := by
  cases x with
  | nan => rfl
  | number negative magnitude _ =>
    show (magnitude : Int) = ((orderKey negative magnitude).natAbs : Nat)
    rw [natAbs_orderKey]

theorem abs_mem {x bound : Binary64} (hlo : -bound ≤ x) (hhi : x ≤ bound) :
    0 ≤ x.abs ∧ x.abs ≤ bound := by
  rw [le_iff, place_neg] at hlo
  rw [le_iff] at hhi
  have hne : x.abs ≠ .nan := by
    cases x with
    | nan => exact absurd rfl hhi.1
    | number negative magnitude h => exact Binary64.noConfusion
  constructor
  · rw [le_iff, place_abs, place_zero]
    exact ⟨zero_ne_nan, hne, Int.natCast_nonneg _⟩
  · rw [le_iff, place_abs]
    exact ⟨hne, hhi.2.1, by omega⟩

/-- The distance of a number between two bounds from a number between them. -/
theorem abs_sub_mem {x lo hi centre bound : Binary64} (hlo : lo.isFinite = true)
    (hhi : hi.isFinite = true) (hcentre : (-centre).isFinite = true)
    (hbelow : -bound ≤ lo + -centre) (habove : hi + -centre ≤ bound) (h : lo ≤ x ∧ x ≤ hi) :
    0 ≤ (x - centre).abs ∧ (x - centre).abs ≤ bound := by
  have hx := isFinite_of_le_of_le hlo hhi h.1 h.2
  have hrefl : -centre ≤ -centre := le_refl (ne_nan_of_isFinite hcentre)
  rw [sub_eq]
  apply abs_mem
  · exact Binary64.le_trans hbelow (add_le_add hlo hx hcentre hcentre h.1 hrefl)
  · exact Binary64.le_trans (add_le_add hx hhi hcentre hcentre h.2 hrefl) habove

end Binary64

/-- No probability is further than one half from one half. -/
theorem distance_mem {value : Binary64} (h : 0 ≤ value ∧ value ≤ 1) :
    0 ≤ (value - 0.5).abs ∧ (value - 0.5).abs ≤ 0.5 := by
  apply abs_sub_mem isFinite_zero isFinite_one ?_ ?_ ?_ h
  all_goals decide +kernel

namespace Probabilities

theorem size_le (p : Probabilities) : p.size ≤ 4 := List.length_filterMap_le _ Category.all

/-- The greatest distances there can be have the mean one half. -/
theorem mean_of_halves : ∀ size ≤ 4, 0 < size →
    (Binary64.sum (List.replicate size 0.5)).isFinite = true ∧
      (Binary64.ofNat size).isFinite = true ∧ 0 < Binary64.ofNat size ∧
      Binary64.sum (List.replicate size 0.5) / Binary64.ofNat size / 0.5 ≤ 1 := by
  decide +kernel

end Probabilities

namespace RiskAssessment

theorem confidenceOf_mem {p : Probabilities}
    (hp : ∀ entry ∈ p.entries, 0 ≤ entry.2 ∧ entry.2 ≤ 1) :
    0 ≤ confidenceOf p ∧ confidenceOf p ≤ 1 := by
  by_cases hempty : p.isEmpty = true
  · rw [confidenceOf, if_pos hempty]
    exact ⟨le_refl zero_ne_nan, zero_le_one⟩
  · rw [confidenceOf, if_neg hempty]
    have hsize : 0 < p.size := by
      rw [Probabilities.isEmpty, List.isEmpty_iff] at hempty
      exact List.length_pos_of_ne_nil hempty
    rcases Probabilities.mean_of_halves p.size p.size_le hsize with ⟨hhalves, hn, hpos, hmean⟩
    rcases half_spec with ⟨hfinite, hhalf⟩
    -- the distances are compared with halves, term by term, through sum and mean
    have hterms : ∀ entry ∈ p.entries, 0 ≤ (entry.2 - 0.5).abs ∧ (entry.2 - 0.5).abs ≤ 0.5 :=
      fun entry hentry => distance_mem (hp entry hentry)
    have hconstant : p.entries.map (fun _ => (0.5 : Binary64)) = List.replicate p.size 0.5 :=
      List.map_const'
    rw [← hconstant] at hhalves hmean
    have hsum := Scalar.sum_le_sum hterms hhalves
    have hnonneg : 0 ≤ Scalar.sum (p.entries.map fun entry => (entry.2 - 0.5).abs) := by
      apply Scalar.sum_nonneg
      intro x hx
      rcases List.mem_map.mp hx with ⟨entry, hentry, rfl⟩
      exact (hterms entry hentry).1
    constructor
    · exact div_nonneg (div_nonneg hnonneg hn hpos) hfinite hhalf
    · have hdivided := div_le_div_right hn hpos hsum.2
      exact Binary64.le_trans (div_le_div_right hfinite hhalf hdivided) hmean

end RiskAssessment

/-! ## Assessments -/

namespace RiskAssessment

/-- The numbers of an assessment are finite, whatever the weights are and the classifier said. -/
theorem isFinite_calculate (weights : Severities) (p : Probabilities)
    (importance : Option Importance) :
    let risk := calculate weights p importance
    risk.overallScore.isFinite = true ∧ risk.probabilities.Finite ∧
      risk.confidence.isFinite = true := by
  intro risk
  have hscore := score_mem weights p.sanitized_mem
  refine ⟨?_, ?_, ?_⟩
  · exact isFinite_of_nonneg_of_le isFinite_ten hscore.1 hscore.2
  · exact fun entry hentry => isFinite_of_mem (p.entries_sanitized_mem entry hentry)
  · exact isFinite_of_mem (confidenceOf_mem p.entries_sanitized_mem)

/-- An assessment is in range. The weights may be negative, infinite or not-a-number, and so may be
what the classifier said: the score is a number from 0 to 10, and the confidence one from 0 to 1. -/
theorem calculate_mem (weights : Severities) (p : Probabilities)
    (importance : Option Importance) :
    let risk := calculate weights p importance
    (risk.overallScore ≠ .nan ∧ 0 ≤ risk.overallScore ∧ risk.overallScore ≤ 10) ∧
      risk.confidence ≠ .nan ∧ 0 ≤ risk.confidence ∧ risk.confidence ≤ 1 := by
  intro risk
  rcases isFinite_calculate weights p importance with ⟨hscore, -, hconfidence⟩
  constructor
  · exact ⟨ne_nan_of_isFinite hscore, score_mem weights p.sanitized_mem⟩
  · exact ⟨ne_nan_of_isFinite hconfidence, confidenceOf_mem p.entries_sanitized_mem⟩

/-- Weights that cancel in their total and not in the sum, which overflows. -/
example :
    let weights : Severities := ⟨1e308, -5e307, 1e308, 0⟩
    let p : Probabilities := .insert (.insert .empty .reentrancy 1) .accessControl 1
    weightedSum weights (.of p.sanitized.probability) = .infinity false ∧
      score weights p.sanitized = 10 := by
  decide +kernel

end RiskAssessment

/-! ## Features -/

namespace Binary64

theorem ofNat_mono {m n : Nat} (h : m ≤ n) : ofNat m ≤ ofNat n := by
  have hmono : roundMagnitude (m * Nat.pow 2 1074) 1 ≤ roundMagnitude (n * Nat.pow 2 1074) 1 := by
    apply roundMagnitude_mono Nat.one_pos Nat.one_pos
    rw [Nat.mul_one, Nat.mul_one]
    exact Nat.mul_le_mul_right _ h
  refine le_iff.mpr ⟨round_ne_nan _ _ _, round_ne_nan _ _ _, ?_⟩
  rw [ofNat, ofNat, place_round, place_round]
  simpa only [orderKey, Bool.false_eq_true, if_false, Int.ofNat_le] using hmono

/-- No count is too great for a double. -/
theorem isFinite_ofNat_toNat (count : Count) : (ofNat count.toNat).isFinite = true := by
  have hlimit : (ofNat countLimit).isFinite = true := by decide +kernel
  have hcount := ofNat_mono count.le_limit
  exact isFinite_of_le_of_le isFinite_zero hlimit (ofNat_mono (Nat.zero_le _)) hcount

end Binary64

theorem FeatureVector.isFinite_of_mem_flat (v : FeatureVector) :
    ∀ x ∈ v.flat, x.isFinite = true := by
  intro x hx
  rcases List.mem_map.mp hx with ⟨value, -, rfl⟩
  cases value with
  | count n => exact isFinite_ofNat_toNat n
  | flag b =>
    cases b with
    | false => exact isFinite_zero
    | true => exact isFinite_one

end RiskGate

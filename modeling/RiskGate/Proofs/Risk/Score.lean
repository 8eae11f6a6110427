import RiskGate.Proofs.Profile.Validity

/-! # Scores without overflow

The weights of an accepted profile are finite, but their total need not be, and neither need be the
sum that the score scales before it divides.

* `FiniteScore`: a score that is computed from finite numbers throughout;
* `finiteScore_iff`: scores under an accepted profile are such scores exactly if ten times the total
  of the weights is finite.
-/

namespace RiskGate

open Binary64

/-! ## Sums of non-negative numbers -/

namespace Scalar

theorem sum_nonneg {terms : List Binary64} (hterms : ∀ x ∈ terms, 0 ≤ x) : 0 ≤ sum terms :=
  foldl_add_nonneg hterms negZero_nonneg

/-- A sum that ends finite has finite partial sums. -/
theorem isFinite_sum_take {terms : List Binary64} (hsum : (sum terms).isFinite = true) (n : Nat) :
    (sum (terms.take n)).isFinite = true := by
  have hsplit : sum terms = (terms.drop n).foldl (· + ·) (sum (terms.take n)) := by
    rw [sum, sum, ← List.foldl_append, List.take_append_drop]
  rw [hsplit] at hsum
  exact (isFinite_of_isFinite_foldl hsum).1

theorem sum_le_sum {α : Type} {terms : List α} {f g : α → Binary64}
    (hterms : ∀ t ∈ terms, 0 ≤ f t ∧ f t ≤ g t) (hsum : (sum (terms.map g)).isFinite = true) :
    (sum (terms.map f)).isFinite = true ∧ sum (terms.map f) ≤ sum (terms.map g) :=
  foldl_add_le hterms negZero_nonneg (le_refl (by decide)) hsum

end Scalar

/-! ## The numbers behind a score -/

theorem isFinite_of_mem {x : Binary64} (h : 0 ≤ x ∧ x ≤ 1) : x.isFinite = true :=
  isFinite_of_nonneg_of_le isFinite_one h.1 h.2

/-- A score that is computed by its formula from finite numbers: the partial sums of the weights,
the products, their partial sums, the scaled sum and the quotient. -/
structure FiniteScore (weights : Severities) (probabilities : PerCategory Binary64) : Prop where
  total_pos : 0 < weights.total
  totals : ∀ n, (Scalar.sum ((PerCategory.toList weights).take n)).isFinite = true
  products : ∀ c, (probabilities.get c * PerCategory.get weights c).isFinite = true
  sums : ∀ n, (Scalar.sum ((Category.all.map fun c =>
    probabilities.get c * PerCategory.get weights c).take n)).isFinite = true
  scaled : (weightedSum weights probabilities * 10).isFinite = true
  quotient : (weightedSum weights probabilities * 10 / weights.total).isFinite = true
  formula : weightedScore weights probabilities =
    Scalar.clampScore (weightedSum weights probabilities * 10 / weights.total)

/-- The score of doubles, with its guard as a proposition. -/
theorem weightedScore_eq (weights : Severities) (probabilities : PerCategory Binary64) :
    weightedScore weights probabilities =
      if 0 < weights.total ∧ weights.total.isFinite = true then
        Scalar.clampScore (weightedSum weights probabilities * 10 / weights.total)
      else 0 := by
  have hguard : (Scalar.lt Scalar.zero weights.total && Scalar.isFinite weights.total) = true ↔
      0 < weights.total ∧ weights.total.isFinite = true := by
    rw [Bool.and_eq_true]
    exact and_congr_left' decide_eq_true_iff
  exact if_congr hguard rfl rfl

section

variable {weights : Severities} {probabilities : PerCategory Binary64}
  (hweights : weights.Accepted)
  (hprobabilities : ∀ c, 0 ≤ probabilities.get c ∧ probabilities.get c ≤ 1)

include hweights hprobabilities

/-- A product never exceeds its weight. -/
theorem product_mem (c : Category) :
    (probabilities.get c * PerCategory.get weights c).isFinite = true ∧
      0 ≤ probabilities.get c * PerCategory.get weights c ∧
      probabilities.get c * PerCategory.get weights c ≤ PerCategory.get weights c := by
  obtain ⟨hfinite, hnonneg⟩ := hweights c
  obtain ⟨hlo, hhi⟩ := hprobabilities c
  have hprobability := isFinite_of_mem (hprobabilities c)
  have hproduct := mul_nonneg hprobability hfinite hlo hnonneg
  have hle := mul_le_of_le_one hprobability hfinite hnonneg hhi
  exact ⟨isFinite_of_nonneg_of_le hfinite hproduct hle, hproduct, hle⟩

theorem products_nonneg : ∀ x ∈ Category.all.map fun c =>
    probabilities.get c * PerCategory.get weights c, 0 ≤ x := by
  intro x hx
  obtain ⟨c, -, rfl⟩ := List.mem_map.mp hx
  exact (product_mem hweights hprobabilities c).2.1

theorem weightedSum_nonneg : 0 ≤ weightedSum weights probabilities :=
  Scalar.sum_nonneg (products_nonneg hweights hprobabilities)

theorem weightedSum_le_total (htotal : weights.total.isFinite = true) :
    (weightedSum weights probabilities).isFinite = true ∧
      weightedSum weights probabilities ≤ weights.total :=
  Scalar.sum_le_sum (fun c _ => (product_mem hweights hprobabilities c).2) htotal

/-- Scaling the total is the most that a score asks for. -/
theorem finiteScore_of_scaled (hpositive : 0 < weights.total)
    (hscaled : (weights.total * 10).isFinite = true) :
    FiniteScore weights probabilities := by
  have htotal := isFinite_of_isFinite_mul hscaled
  have hnonneg := weightedSum_nonneg hweights hprobabilities
  obtain ⟨hsum, hle⟩ := weightedSum_le_total hweights hprobabilities htotal
  have hproduct := mul_nonneg hsum isFinite_ten hnonneg zero_le_ten
  have hscaledLe := mul_le_mul_right hsum htotal isFinite_ten zero_le_ten hle
  -- what the probabilities give is between zero and what the total gives in its place
  have hquotient : weightedSum weights probabilities * 10 / weights.total ≤ ofNat 20 :=
    le_trans (div_le_div_right htotal hpositive hscaledLe)
      (mul_ten_div_self_le htotal hpositive hscaled)
  exact {
    total_pos := hpositive
    totals := Scalar.isFinite_sum_take htotal
    products := fun c => (product_mem hweights hprobabilities c).1
    sums := Scalar.isFinite_sum_take hsum
    scaled := isFinite_of_nonneg_of_le hscaled hproduct hscaledLe
    quotient := isFinite_of_nonneg_of_le (ofNat_spec 20 (Nat.le_refl _)).1
      (div_nonneg hproduct htotal hpositive) hquotient
    formula := (weightedScore_eq weights probabilities).trans (if_pos ⟨hpositive, htotal⟩) }

end

/-- Where every category is certain, the weighted sum is no less than the total. -/
theorem total_le_weightedSum {weights : Severities} (hweights : weights.Accepted)
    (hsum : (weightedSum weights (.of fun _ => 1)).isFinite = true) :
    weights.total.isFinite = true ∧ weights.total ≤ weightedSum weights (.of fun _ => 1) := by
  apply Scalar.sum_le_sum _ hsum
  intro c _
  obtain ⟨hfinite, hnonneg⟩ := hweights c
  obtain ⟨hne, hplace⟩ := place_one_mul hfinite
  rw [PerCategory.get_of]
  exact ⟨hnonneg, le_iff.mpr ⟨ne_nan_of_isFinite hfinite, hne, hplace.ge⟩⟩

theorem Probabilities.sanitized_mem (p : Probabilities) (c : Category) :
    0 ≤ (PerCategory.of p.sanitized.probability).get c ∧
      (PerCategory.of p.sanitized.probability).get c ≤ 1 := by
  rw [PerCategory.get_of, probability_sanitized]
  exact sanitize_mem _

/-- Under an accepted profile the total of the weights is positive and no product overflows. All the
other numbers behind a score are finite too, whatever the probabilities, exactly if ten times the
total is. -/
theorem finiteScore_iff {profile : Profile} (hcheck : profile.check = .ok ()) :
    0 < profile.weights.total ∧
      (∀ (p : Probabilities) (c : Category), (p.sanitized.probability c *
        PerCategory.get profile.weights c).isFinite = true) ∧
      ((∀ p : Probabilities, FiniteScore profile.weights (.of p.sanitized.probability)) ↔
        (profile.weights.total * 10).isFinite = true) := by
  obtain ⟨hweights, hpositive⟩ := Profile.weights_of_check hcheck
  refine ⟨hpositive, ?_, ?_, ?_⟩
  · intro p c
    have hproduct := (product_mem hweights p.sanitized_mem c).1
    rwa [PerCategory.get_of] at hproduct
  · intro hfinite
    -- the probabilities that ask for the most are certain in all categories
    have hcertain := hfinite (.of fun _ => some 1)
    have hones : (Probabilities.sanitized (.of fun _ => some 1)).probability = fun _ => 1 := by
      funext c
      rw [Probabilities.probability_sanitized, Probabilities.probability, PerCategory.get_of]
      exact Probabilities.sanitize_of_mem zero_le_one (le_refl (ne_nan_of_isFinite isFinite_one))
    rw [hones] at hcertain
    obtain ⟨htotal, hle⟩ := total_le_weightedSum hweights (hcertain.sums 4)
    have hscaledLe := mul_le_mul_right htotal (hcertain.sums 4) isFinite_ten zero_le_ten hle
    exact isFinite_of_nonneg_of_le hcertain.scaled
      (mul_nonneg htotal isFinite_ten (le_of_lt hpositive) zero_le_ten) hscaledLe
  · intro hscaled p
    exact finiteScore_of_scaled hweights p.sanitized_mem hpositive hscaled

theorem finiteScore_default : ({} : Profile).check = .ok () ∧
    ∀ p : Probabilities, FiniteScore Severities.default (.of p.sanitized.probability) := by
  have hgiven : ({} : Profile).check = .ok () ∧
      (Severities.default.total * 10).isFinite = true := by
    decide +kernel
  exact ⟨hgiven.1, (finiteScore_iff hgiven.1).2.2.mpr hgiven.2⟩

/-- Half a probability for the only weight is half of the greatest score, and certainty in all
categories is the greatest score. Close to the greatest double the first becomes the greatest score,
because the scaled sum overflows, and the second becomes 0, because the total does. -/
theorem finiteScore_overflow :
    let single : Profile := { weights := ⟨1e308, 0, 0, 0⟩ }
    let half : Probabilities := .insert .empty .reentrancy 0.5
    let equal : Profile := { weights := ⟨1e308, 1e308, 1e308, 1e308⟩ }
    let certain : Probabilities := .of fun _ => some 1
    single.check = .ok () ∧ ¬ FiniteScore single.weights (.of half.sanitized.probability) ∧
      RiskAssessment.score single.weights half.sanitized = 10 ∧
    equal.check = .ok () ∧ equal.weights.total = .infinity false ∧
      RiskAssessment.score equal.weights certain.sanitized = 0 := by
  intro single half equal certain
  have hvalues : (single.check = .ok () ∧
      (weightedSum single.weights (.of half.sanitized.probability) * 10).isFinite = false ∧
      RiskAssessment.score single.weights half.sanitized = 10) ∧
    equal.check = .ok () ∧ equal.weights.total = .infinity false ∧
      RiskAssessment.score equal.weights certain.sanitized = 0 := by
    decide +kernel
  obtain ⟨⟨hcheck, hscaled, hscore⟩, hequal⟩ := hvalues
  refine ⟨hcheck, ?_, hscore, hequal⟩
  intro h
  rw [h.scaled] at hscaled
  cases hscaled

end RiskGate

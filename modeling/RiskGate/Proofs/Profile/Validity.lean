import RiskGate.Profile.Basic
import RiskGate.Proofs.Binary64.Arithmetic
import RiskGate.Proofs.Risk.Probabilities
import RiskGate.Proofs.Stages

/-! # Valid profiles

A profile is checked against a list of requirements, and the complaint is about the first one that
it does not meet. Each is a condition on the numbers in the profile, with no rounding in it.

* `Profile.Requirement`, `Profile.Meets` and `Profile.complaint`: the requirements in their order;
* `Severities.Accepted.total_pos_iff`: a rounded total is positive exactly if some weight is;
* `Profile.check_eq_error_iff` and `Profile.check_eq_ok_iff`: what the check says;
* `Profile.weights_of_check`: what an accepted profile says about its weights.
-/

namespace RiskGate

open Binary64

/-! ## Accepted weights -/

/-- Weights that can be multiplied and added: numbers from zero on, but not infinity. -/
def Severities.Accepted (weights : Severities) : Prop :=
  ∀ c, (PerCategory.get weights c).isFinite = true ∧ 0 ≤ PerCategory.get weights c

theorem Severities.Accepted.nonneg {weights : Severities} (hweights : weights.Accepted) :
    ∀ x ∈ PerCategory.toList weights, 0 ≤ x := by
  intro x hx
  obtain ⟨c, -, rfl⟩ := List.mem_map.mp hx
  exact (hweights c).2

/-- Rounding neither makes a positive total of weights that are not positive, nor hides the one that
is: the total, which may be infinite, is no less than each weight. -/
theorem Severities.Accepted.total_pos_iff {weights : Severities} (hweights : weights.Accepted) :
    0 < weights.total ↔ ∃ c, 0 < PerCategory.get weights c := by
  constructor
  · intro htotal
    by_contra hnone
    have hzeros : ∀ x ∈ PerCategory.toList weights, x.IsZero := by
      intro x hx
      rcases List.mem_map.mp hx with ⟨c, -, rfl⟩
      exact isZero_of_nonneg (hweights c).2 fun hpos => hnone ⟨c, hpos⟩
    have hzero : weights.total.IsZero := isZero_foldl_add hzeros isZero_negZero
    exact (place_pos htotal).ne' hzero.2
  · rintro ⟨c, hpos⟩
    have hmem : PerCategory.get weights c ∈ PerCategory.toList weights :=
      List.mem_map_of_mem (Category.mem_all c)
    exact lt_of_lt_of_le hpos ((le_foldl_add hweights.nonneg negZero_nonneg).2 _ hmem)

/-- Accepted weights have a total that is a number, so it is positive unless it is at most zero. -/
theorem Severities.Accepted.not_total_le_zero_iff {weights : Severities}
    (hweights : weights.Accepted) :
    ¬ weights.total ≤ 0 ↔ ∃ c, 0 < PerCategory.get weights c := by
  have hnonneg : 0 ≤ weights.total := foldl_add_nonneg hweights.nonneg negZero_nonneg
  rw [not_le (nonneg_iff.mp hnonneg).1 zero_ne_nan, hweights.total_pos_iff]

namespace Profile

/-! ## Requirements -/

/-- What is required of a profile. -/
inductive Requirement where
  | weight (category : Category)
  | total
  | thresholds
  deriving DecidableEq

/-- The requirements in the order in which they are checked. -/
def Requirement.order : List Requirement := Category.all.map .weight ++ [.total, .thresholds]

theorem Requirement.mem_order (requirement : Requirement) : requirement ∈ order := by
  cases requirement with
  | weight c => exact List.mem_append_left _ (List.mem_map_of_mem (Category.mem_all c))
  | total => decide
  | thresholds => decide

/-- Whether a profile meets a requirement: a weight is finite and not negative, some weight is
positive, and the thresholds are finite and in order. -/
def Meets (profile : Profile) : Requirement → Prop
  | .weight c => (PerCategory.get profile.weights c).isFinite = true ∧
      0 ≤ PerCategory.get profile.weights c
  | .total => ∃ c, 0 < PerCategory.get profile.weights c
  | .thresholds => profile.thresholds.allowBelow.isFinite = true ∧
      profile.thresholds.blockAt.isFinite = true ∧
      profile.thresholds.allowBelow ≤ profile.thresholds.blockAt

/-- The complaint about a requirement that is not met, with the values that do not meet it. -/
def complaint (profile : Profile) : Requirement → ProfileError
  | .weight c => .invalidWeight c (PerCategory.get profile.weights c)
  | .total => .zeroTotalWeight
  | .thresholds => .invalidThresholds profile.thresholds.allowBelow profile.thresholds.blockAt

/-- Whether a profile is at fault with a requirement, and the error that says so. -/
def Violates (profile : Profile) (requirement : Requirement) (e : ProfileError) : Prop :=
  ¬ profile.Meets requirement ∧ profile.complaint requirement = e

theorem exists_violates_iff {profile : Profile} {requirement : Requirement} :
    (∃ e, profile.Violates requirement e) ↔ ¬ profile.Meets requirement :=
  ⟨fun ⟨_, hmeets, _⟩ => hmeets, fun hmeets => ⟨_, hmeets, rfl⟩⟩

theorem acceptsWeight_iff {value : Binary64} :
    acceptsWeight value = true ↔ value.isFinite = true ∧ 0 ≤ value := by
  rw [acceptsWeight, Bool.and_eq_true, Bool.not_eq_true', decide_eq_false_iff_not]
  refine and_congr_right fun hfinite => ?_
  exact not_lt (ne_nan_of_isFinite hfinite) zero_ne_nan

theorem acceptsThresholds_iff (profile : Profile) :
    acceptsThresholds profile.thresholds = true ↔ profile.Meets .thresholds := by
  rw [acceptsThresholds, Bool.and_eq_true, Bool.and_eq_true, Bool.not_eq_true',
    decide_eq_false_iff_not, and_assoc, Meets]
  refine and_congr_right fun hallow => and_congr_right fun hblock => ?_
  exact not_lt (ne_nan_of_isFinite hblock) (ne_nan_of_isFinite hallow)

theorem accepted_of_invalidWeight?_eq_none {weights : Severities}
    (hnone : invalidWeight? weights = none) : weights.Accepted := by
  intro c
  have haccepted := List.find?_eq_none.mp hnone c (Category.mem_all c)
  exact acceptsWeight_iff.mp (by simpa using haccepted)

/-! ## The check -/

section

variable {profile : Profile}

/-- The complaint is about the first requirement that the profile does not meet. -/
theorem check_eq_error_iff {e : ProfileError} :
    profile.check = .error e ↔ FirstFailure Requirement.order profile.Violates e := by
  have hweight : ∀ c, (!acceptsWeight (PerCategory.get profile.weights c)) = true ↔
      ∃ e, profile.Violates (.weight c) e := by
    intro c
    rw [exists_violates_iff, Bool.not_eq_true', ← Bool.not_eq_true, acceptsWeight_iff, Meets]
  rw [Requirement.order, firstFailure_map_append hweight, firstFailure_cons,
    firstFailure_singleton, ← not_exists, exists_violates_iff, not_not, check]
  have hfind : Category.all.find? (fun c => !acceptsWeight (PerCategory.get profile.weights c)) =
      invalidWeight? profile.weights := rfl
  rw [hfind]
  cases hinvalid : invalidWeight? profile.weights with
  | some c =>
    have hrejected := List.find?_some (hfind.trans hinvalid)
    have hfails := exists_violates_iff.mp ((hweight c).mp hrejected)
    simp [Violates, complaint, hfails]
  | none =>
    -- the weights are accepted, so the sign of their total is that of the greatest of them
    have htotal := (accepted_of_invalidWeight?_eq_none hinvalid).not_total_le_zero_iff
    have hthresholds := acceptsThresholds_iff profile
    by_cases hzero : profile.weights.total ≤ 0
    · have hfails : ¬ profile.Meets .total := fun h => htotal.mpr h hzero
      simp [hzero, Violates, complaint, hfails]
    · have hmeets : profile.Meets .total := htotal.mp hzero
      by_cases haccepts : acceptsThresholds profile.thresholds = true
      · simp [hzero, haccepts, Violates, hmeets, hthresholds.mp haccepts]
      · simp [hzero, haccepts, Violates, complaint, hmeets, hthresholds.not.mp haccepts]

theorem check_eq_ok_iff : profile.check = .ok () ↔ ∀ requirement, profile.Meets requirement := by
  have hfails : (∃ e, profile.check = .error e) ↔ ∃ requirement, ¬ profile.Meets requirement := by
    simp only [check_eq_error_iff, exists_firstFailure_iff, exists_violates_iff,
      Requirement.mem_order, true_and]
  rw [← not_exists_not, ← hfails]
  cases profile.check with
  | error e => simp
  | ok _ => simp

theorem weights_of_check (hcheck : profile.check = .ok ()) :
    profile.weights.Accepted ∧ 0 < profile.weights.total := by
  have hmeets := check_eq_ok_iff.mp hcheck
  have hweights : profile.weights.Accepted := fun c => hmeets (.weight c)
  exact ⟨hweights, hweights.total_pos_iff.mpr (hmeets .total)⟩

end

end Profile

end RiskGate

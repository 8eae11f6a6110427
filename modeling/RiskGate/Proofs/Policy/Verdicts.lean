import RiskGate.Policy.Decision
import RiskGate.Proofs.Binary64.Order
import RiskGate.Risk.Band

/-! # Verdicts and bands by their bounds

Where a score lies decides the verdict on it and its band. Each bound belongs to the stricter side.

* `Decision.Suits` and `Decision.suits_ofScore`: verdicts, by the thresholds of a profile;
* `Decision.exitCode_eq_iff`: the verdict that each exit code stands for;
* `RiskBand.Suits` and `RiskBand.suits_ofScore`: bands, by bounds that all profiles share.
-/

namespace RiskGate

open Binary64

/-! ## Verdicts -/

namespace Decision

theorem ofScore_eq_allow_iff {thresholds : Thresholds} {score : Binary64} :
    ofScore thresholds score = .allow ↔ score < thresholds.allowBelow := by
  unfold ofScore
  split_ifs <;> simp_all

/-- What a verdict on a score says about it. -/
structure Suits (thresholds : Thresholds) (score : Binary64) (decision : Decision) : Prop where
  allow_iff : decision = .allow ↔ score < thresholds.allowBelow
  warn_iff : decision = .warn ↔ thresholds.allowBelow ≤ score ∧ score < thresholds.blockAt
  block_iff : decision = .block ↔ thresholds.blockAt ≤ score

/-- Thresholds that are in order leave one verdict on each number. -/
theorem suits_ofScore {thresholds : Thresholds} {score : Binary64}
    (hthresholds : thresholds.allowBelow ≤ thresholds.blockAt) (hscore : score ≠ .nan) :
    Suits thresholds score (ofScore thresholds score) := by
  rcases le_iff.mp hthresholds with ⟨hallowBelow, hblockAt, -⟩
  have hallow : thresholds.allowBelow ≤ score ↔ ¬ score < thresholds.allowBelow :=
    (not_lt hscore hallowBelow).symm
  have hblock : thresholds.blockAt ≤ score ↔ ¬ score < thresholds.blockAt :=
    (not_lt hscore hblockAt).symm
  have hstricter : score < thresholds.allowBelow → score < thresholds.blockAt :=
    fun h => lt_of_lt_of_le h hthresholds
  constructor
  case allow_iff => exact ofScore_eq_allow_iff
  case warn_iff =>
    rw [hallow]
    unfold ofScore
    split_ifs <;> simp_all
  case block_iff =>
    rw [hblock]
    unfold ofScore
    split_ifs <;> simp_all

/-- Allowing has the code 0, warning the code 1 and blocking the code 2. -/
theorem exitCode_eq_iff (decision : Decision) :
    (decision.exitCode = 0 ↔ decision = .allow) ∧ (decision.exitCode = 1 ↔ decision = .warn) ∧
      (decision.exitCode = 2 ↔ decision = .block) := by
  cases decision <;> decide

end Decision

/-! ## Bands -/

namespace RiskBand

/-- What the band of a score says about it. -/
structure Suits (score : Binary64) (band : RiskBand) : Prop where
  low_iff : band = .low ↔ score < 3
  medium_iff : band = .medium ↔ 3 ≤ score ∧ score < 5
  high_iff : band = .high ↔ 5 ≤ score ∧ score < 7
  critical_iff : band = .critical ↔ 7 ≤ score

theorem bounds_le : (3 : Binary64) ≤ 5 ∧ (5 : Binary64) ≤ 7 := by decide +kernel

/-- Every number is in one band. -/
theorem suits_ofScore {score : Binary64} (hscore : score ≠ .nan) :
    Suits score (ofScore score) := by
  rcases bounds_le with ⟨hlower, hupper⟩
  rcases le_iff.mp hlower with ⟨hthree, hfive, -⟩
  have hlow : (3 : Binary64) ≤ score ↔ ¬ score < 3 := (not_lt hscore hthree).symm
  have hmedium : (5 : Binary64) ≤ score ↔ ¬ score < 5 := (not_lt hscore hfive).symm
  have hhigh : (7 : Binary64) ≤ score ↔ ¬ score < 7 := (not_lt hscore (le_iff.mp hupper).2.1).symm
  have hstricter : score < 3 → score < 5 := fun h => lt_of_lt_of_le h hlower
  have hstrictest : score < 5 → score < 7 := fun h => lt_of_lt_of_le h hupper
  constructor
  case low_iff =>
    unfold ofScore
    split_ifs <;> simp_all
  case medium_iff =>
    rw [hlow]
    unfold ofScore
    split_ifs <;> simp_all
  case high_iff =>
    rw [hmedium]
    unfold ofScore
    split_ifs <;> simp_all
  case critical_iff =>
    rw [hhigh]
    unfold ofScore
    split_ifs <;> simp_all

end RiskBand

end RiskGate

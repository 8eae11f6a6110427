import RiskGate.Proofs.Policy.Advice
import RiskGate.Proofs.Policy.Monotonicity
import RiskGate.Proofs.Policy.Verdicts
import RiskGate.Proofs.Text.Bytes

/-! # Justifications without findings

The justification of an allowed unit says that no significant vulnerabilities were detected. The
score alone decides whether it is said, while the detected vulnerabilities and the advice go by the
single probabilities. A category with a small weight may therefore be listed beside it.

* `Enforcement.statesNoFindings_iff`: the sentence comes with its verdict and with no other;
* `Probabilities.barely` and `Probabilities.score_barely_le`: the least probabilities with which
  given categories are detected, and the least score;
* `Profile.outcome_noFindings`: the categories that may be listed beside the sentence, and the
  profiles under which there are none.
-/

namespace RiskGate

open Binary64

/-! ## What a justification ends with -/

namespace Enforcement

/-- The sentence that the justification of an allowed unit ends with. -/
def noFindings : String :=
  "No significant vulnerabilities detected by static analysis or ML models."

/-- The justification ends by saying that nothing was detected. -/
def StatesNoFindings (result : Enforcement) : Prop :=
  ∃ before, result.justification = before ++ noFindings

theorem justify_ends_iff {decision : Decision} {score : Binary64} {p : Probabilities} :
    (∃ before, justify decision score p = before ++ noFindings) ↔ decision = .allow := by
  constructor
  · rintro ⟨before, h⟩
    -- the other texts end in sentences of their own, whatever numbers stand before those
    cases decision with
    | allow => rfl
    | warn =>
      unfold justify at h
      rw [← String.append_assoc] at h
      exact absurd h (append_ne_append (by decide) (by decide) _ _)
    | block =>
      unfold justify at h
      rw [← String.append_assoc] at h
      exact absurd h (append_ne_append (by decide) (by decide) _ _)
  · rintro rfl
    exact ⟨_, String.append_assoc.symm⟩

theorem statesNoFindings_iff {thresholds : Thresholds} {score : Binary64} {p : Probabilities} :
    (enforce thresholds score p).StatesNoFindings ↔ score < thresholds.allowBelow :=
  justify_ends_iff.trans Decision.ofScore_eq_allow_iff

end Enforcement

/-! ## The least that is detected -/

/-- The least number greater than `detectedAbove`. -/
def leastDetected : Binary64 := 0.5000000000000001

theorem leastDetected_spec : leastDetected.place = detectedAbove.place + 1 ∧
    detectedAbove ≠ .nan ∧ leastDetected ≠ .nan ∧ 0 < leastDetected ∧ leastDetected ≤ 1 := by
  decide +kernel

theorem detectedAbove_lt_iff {x : Binary64} : detectedAbove < x ↔ leastDetected ≤ x := by
  rcases leastDetected_spec with ⟨hplace, habove, hleast, -, -⟩
  rw [lt_iff, le_iff, hplace, Int.add_one_le_iff]
  exact ⟨fun h => ⟨hleast, h.2⟩, fun h => ⟨habove, h.2⟩⟩

namespace Probabilities

theorem mem_above_iff {p : Probabilities} {c : Category} :
    c ∈ p.above detectedAbove ↔ leastDetected ≤ p.probability c := by
  rw [mem_above detectedAbove_nonneg, detectedAbove_lt_iff]

/-- The least probabilities with which the categories are detected. -/
def barely (detected : Finset Category) : Probabilities :=
  .of fun c => if c ∈ detected then some leastDetected else none

theorem probability_barely (detected : Finset Category) (c : Category) :
    (barely detected).probability c = if c ∈ detected then leastDetected else 0 := by
  rw [probability, barely, PerCategory.get_of, zero_eq]
  split_ifs <;> rfl

theorem probability_barely_mem (detected : Finset Category) (c : Category) :
    0 ≤ (barely detected).probability c ∧ (barely detected).probability c ≤ 1 := by
  rw [probability_barely]
  split_ifs
  · rcases leastDetected_spec with ⟨-, -, -, hpositive, hle⟩
    exact ⟨le_of_lt hpositive, hle⟩
  · exact ⟨le_refl zero_ne_nan, zero_le_one⟩

theorem probability_sanitized_barely (detected : Finset Category) :
    (barely detected).sanitized.probability = (barely detected).probability := by
  funext c
  rcases probability_barely_mem detected c with ⟨hlo, hhi⟩
  rw [probability_sanitized, sanitize_of_mem hlo hhi]

theorem mem_above_sanitized_barely {detected : Finset Category} {c : Category} :
    c ∈ (barely detected).sanitized.above detectedAbove ↔ c ∈ detected := by
  rcases leastDetected_spec with ⟨-, -, hleast, hpositive, -⟩
  rw [mem_above_iff, probability_sanitized_barely, probability_barely]
  split_ifs with hc
  · exact iff_of_true (le_refl hleast) hc
  · exact iff_of_false ((not_le hleast zero_ne_nan).mpr hpositive) hc

/-- Where categories are detected, the score is no less than if they barely were. -/
theorem score_barely_le {weights : Severities} (hweights : weights.Accepted) (p : Probabilities)
    {detected : Finset Category} (h : ∀ c ∈ detected, c ∈ p.sanitized.above detectedAbove) :
    RiskAssessment.score weights (barely detected) ≤
      RiskAssessment.score weights p.sanitized := by
  apply weightedScore_mono hweights _ p.sanitized_mem
  · intro c
    rw [PerCategory.get_of, PerCategory.get_of, probability_barely]
    split_ifs with hc
    · exact mem_above_iff.mp (h c hc)
    · have hmem := p.sanitized_mem c
      rw [PerCategory.get_of] at hmem
      exact hmem.1
  · intro c
    rw [PerCategory.get_of]
    exact probability_barely_mem detected c

end Probabilities

/-! ## Outcomes -/

namespace Profile

/-- What comes of probabilities under a profile. -/
def outcome (profile : Profile) (p : Probabilities) (importance : Option Importance) :
    Enforcement :=
  .ofAssessment profile.thresholds (.calculate profile.weights p importance)

section

variable {profile : Profile} {p : Probabilities} {importance : Option Importance}

theorem statesNoFindings_outcome_iff : (profile.outcome p importance).StatesNoFindings ↔
    RiskAssessment.score profile.weights p.sanitized < profile.thresholds.allowBelow :=
  Enforcement.statesNoFindings_iff

theorem toFinset_outcome_barely (detected : Finset Category) :
    (profile.outcome (.barely detected) importance).detectedVulnerabilities.toFinset =
      detected := by
  ext c
  rw [List.mem_toFinset]
  exact Probabilities.mem_above_sanitized_barely

/-- The categories that may be listed beside the sentence are those that score as allowed where they
are barely detected. -/
theorem exists_noFindings_iff (hweights : profile.weights.Accepted) (detected : Finset Category) :
    (∃ p importance, (profile.outcome p importance).StatesNoFindings ∧
      (profile.outcome p importance).detectedVulnerabilities.toFinset = detected) ↔
    RiskAssessment.score profile.weights (.barely detected) < profile.thresholds.allowBelow := by
  constructor
  · rintro ⟨p, importance, hstates, rfl⟩
    apply lt_of_le_of_lt _ (statesNoFindings_outcome_iff.mp hstates)
    exact p.score_barely_le hweights fun c hc => List.mem_toFinset.mp hc
  · intro hscore
    refine ⟨.barely detected, none, ?_, toFinset_outcome_barely detected⟩
    rw [statesNoFindings_outcome_iff, RiskAssessment.score,
      Probabilities.probability_sanitized_barely]
    exact hscore

end

/-- An outcome says that nothing was detected exactly if it allows the unit, and its advice is
generic exactly if nothing is listed as detected. The two go together under a profile, whatever the
probabilities, exactly if no category that is barely detected scores as allowed on its own. -/
theorem outcome_noFindings {profile : Profile} (hcheck : profile.check = .ok ()) :
    (∀ (p : Probabilities) (importance : Option Importance),
      let result := profile.outcome p importance
      (result.StatesNoFindings ↔ result.decision = .allow) ∧
      (result.recommendations = [adviceWithoutFindings] ↔ result.detectedVulnerabilities = [])) ∧
    (∀ detected : Finset Category,
      (∃ p importance, (profile.outcome p importance).StatesNoFindings ∧
        (profile.outcome p importance).detectedVulnerabilities.toFinset = detected) ↔
      RiskAssessment.score profile.weights (.barely detected) < profile.thresholds.allowBelow) ∧
    ((∀ p importance, (profile.outcome p importance).StatesNoFindings →
        (profile.outcome p importance).detectedVulnerabilities = [] ∧
        (profile.outcome p importance).recommendations = [adviceWithoutFindings]) ↔
      ∀ c, ¬ RiskAssessment.score profile.weights (.barely {c}) <
        profile.thresholds.allowBelow) := by
  rcases weights_of_check hcheck with ⟨hweights, -⟩
  refine ⟨?_, exists_noFindings_iff hweights, ?_, ?_⟩
  · intro p importance result
    exact ⟨Enforcement.justify_ends_iff, adviceFor_eq_singleton_iff⟩
  · intro hagrees c hscore
    -- the category would be listed on its own beside the sentence
    rcases (exists_noFindings_iff hweights {c}).mpr hscore with ⟨p, importance, hstates, hdetected⟩
    rw [(hagrees p importance hstates).1, List.toFinset_nil] at hdetected
    exact Finset.singleton_ne_empty c hdetected.symm
  · intro hscores p importance hstates
    have hnone : (profile.outcome p importance).detectedVulnerabilities = [] := by
      by_contra hsome
      rcases List.exists_mem_of_ne_nil _ hsome with ⟨c, hc⟩
      apply hscores c
      -- with more detected than this category, the score is no less
      apply lt_of_le_of_lt _ (statesNoFindings_outcome_iff.mp hstates)
      apply p.score_barely_le hweights
      intro d hd
      rw [Finset.mem_singleton.mp hd]
      exact hc
    exact ⟨hnone, adviceFor_eq_singleton_iff.mpr hnone⟩

/-- Under the default weights a threshold of 1 is low enough. -/
theorem outcome_noFindings_strict :
    let strict : Profile := { thresholds := { allowBelow := 1, blockAt := 3 } }
    strict.check = .ok () ∧ ∀ p importance, (strict.outcome p importance).StatesNoFindings →
      (strict.outcome p importance).detectedVulnerabilities = [] ∧
      (strict.outcome p importance).recommendations = [adviceWithoutFindings] := by
  intro strict
  have hgiven : strict.check = .ok () ∧ ∀ c, ¬ RiskAssessment.score strict.weights (.barely {c}) <
      strict.thresholds.allowBelow := by
    decide +kernel
  rcases hgiven with ⟨hcheck, hscores⟩
  exact ⟨hcheck, (outcome_noFindings hcheck).2.2.mpr hscores⟩

/-- Under the default thresholds it is not: reentrancy weighs 3 of 10, so that even a probability of
0.9 scores below 3. -/
theorem outcome_findings_allowed :
    let profile : Profile := {}
    let result := profile.outcome (.insert .empty .reentrancy 0.9) none
    profile.check = .ok () ∧ result.StatesNoFindings ∧
      result.justification = "Risk score 2.7/10 is below threshold. " ++ Enforcement.noFindings ∧
      result.detectedVulnerabilities = [.reentrancy] ∧
      result.recommendations = Category.reentrancy.advice ∧
      ¬ ∀ p importance, (profile.outcome p importance).StatesNoFindings →
        (profile.outcome p importance).detectedVulnerabilities = [] ∧
        (profile.outcome p importance).recommendations = [adviceWithoutFindings] := by
  intro profile result
  have hvalues : profile.check = .ok () ∧
      result.justification = "Risk score 2.7/10 is below threshold. " ++ Enforcement.noFindings ∧
      result.detectedVulnerabilities = [.reentrancy] ∧
      result.recommendations = Category.reentrancy.advice := by
    decide +kernel
  rcases hvalues with ⟨hcheck, htext, hdetected, hadvice⟩
  have hstates : result.StatesNoFindings := ⟨_, htext⟩
  refine ⟨hcheck, hstates, htext, hdetected, hadvice, ?_⟩
  intro hagrees
  have hnone : result.detectedVulnerabilities = [] := (hagrees _ _ hstates).1
  rw [hdetected] at hnone
  cases hnone

end Profile

end RiskGate

import RiskGate.Proofs.Json.Codec
import RiskGate.Proofs.Policy.Absence
import RiskGate.Proofs.Text.Words

/-! # Vulnerabilities by name

The verdict lists the categories that were detected, its justification names categories, and so do
the risk factors of the assessment. All of them go by the same probabilities.

* `mentions`: what a text says about categories, read off from its words;
* `mentions_between`: sentences around a list and marks between its items do not change that;
* `Enforcement.mentions_namedWithPercent` and `Enforcement.mentions_justify`: what lists and
  justifications say;
* `Enforcement.enforce_names`: the categories that are detected, named and listed as factors.
-/

namespace RiskGate

/-! ## What a text says -/

/-- What a word may say about categories. -/
inductive Mention where
  | category (c : Category)
  /-- There are none. -/
  | nothing
  deriving DecidableEq

/-- What a word says, if it says anything. -/
def mention? (word : String) : Option Mention :=
  if word = "none" then some .nothing else (Category.names.lookup word).map .category

/-- What the words of a text say, one after the other. -/
def mentions (text : String) : List Mention := (words text).filterMap mention?

/-- How a list of categories reads, which has a word for it if it is empty. -/
def listing (categories : List Category) : List Mention :=
  if categories = [] then [.nothing] else categories.map .category

/-- A text that may stand in front of any other without a change to what that says. -/
def Opens (text : String) : Prop := EndsApart text ∧ mentions text = []

/-- A text that may stand behind any other without a change to what that says. -/
def Closes (text : String) : Prop := StartsApart text ∧ mentions text = []

instance (text : String) : Decidable (Opens text) := inferInstanceAs (Decidable (_ ∧ _))

instance (text : String) : Decidable (Closes text) := inferInstanceAs (Decidable (_ ∧ _))

theorem mentions_empty : mentions "" = [] := by rw [mentions, words_empty, List.filterMap_nil]

theorem mentions_append_of_opens {a : String} (h : Opens a) (b : String) :
    mentions (a ++ b) = mentions b := by
  rw [mentions, words_append_of_ends h.1, List.filterMap_append]
  exact congrArg (· ++ mentions b) h.2

theorem mentions_append_of_closes (a : String) {b : String} (h : Closes b) :
    mentions (a ++ b) = mentions a := by
  rw [mentions, words_append_of_starts a h.1, List.filterMap_append]
  exact (congrArg (mentions a ++ ·) h.2).trans (List.append_nil _)

theorem mentions_between {separator : String} (hopens : Opens separator)
    (hcloses : Closes separator) (a b : String) :
    mentions (a ++ separator ++ b) = mentions a ++ mentions b := by
  rw [mentions, words_append_of_ends (hopens.1.append a), List.filterMap_append]
  exact congrArg (· ++ mentions b) (mentions_append_of_closes a hcloses)

theorem mentions_intercalate {separator : String} (hopens : Opens separator)
    (hcloses : Closes separator) (texts : List String) :
    mentions (separator.intercalate texts) = texts.flatMap mentions := by
  induction texts with
  | nil => rw [String.intercalate_nil, mentions_empty, List.flatMap_nil]
  | cons text texts ih =>
    cases texts with
    | nil => rw [String.intercalate_singleton, List.flatMap_singleton]
    | cons next texts =>
      rw [String.intercalate_cons_cons, mentions_between hopens hcloses, ih, ← List.flatMap_cons]

theorem mentions_name (c : Category) : mentions c.name = [.category c] := by
  revert c
  decide +kernel

/-- The sentences and marks that justifications, risk factors and numbers are put together from. -/
theorem opens_and_closes :
    (∀ text ∈ ["Risk score ", "/10 ", "indicates moderate risk. Potential vulnerabilities: ",
      "exceeds safety threshold. High probability of: ", ", ", " (", " (prob=", ".", "-"],
      Opens text) ∧
    (∀ text ∈ ["/10 ", ". Manual review recommended before deployment.",
      ". Deployment blocked to prevent potential exploits.", ", ", " (", " (prob=", "%", ")", "."],
      Closes text) ∧
    mentions "NaN" = [] ∧ mentions "inf" = [] ∧ mentions "none" = [.nothing] ∧
    mentions ("is below threshold. " ++
      "No significant vulnerabilities detected by static analysis or ML models.") = [] := by
  decide +kernel

/-! ## Numbers -/

theorem mentions_digits {digits : List Char} (h : ∀ c ∈ digits, c.isDigit = true) :
    mentions (String.ofList digits) = [] := by
  rw [mentions, words_ofList_eq_nil fun c hc => isBreak_of_isDigit (h c hc), List.filterMap_nil]

theorem mentions_pointed (integral : Nat) {fraction : List Char}
    (h : ∀ c ∈ fraction, c.isDigit = true) :
    mentions (Binary64.pointed integral fraction) = [] := by
  have hwhole : mentions (toString integral) = [] := by
    have hdigits : toString integral = String.ofList (Nat.toDigits 10 integral) :=
      Nat.repr_eq_ofList_toDigits
    rw [hdigits]
    exact mentions_digits Json.isDigit_of_mem_toDigits
  unfold Binary64.pointed
  split_ifs
  · rw [String.append_empty, hwhole]
  · rw [← String.append_assoc, mentions_between (opens_and_closes.1 _ (by simp))
      (opens_and_closes.2.1 _ (by simp)), hwhole, mentions_digits h, List.append_nil]

/-- A number says nothing, be it infinite or not a number at all. -/
theorem mentions_fixed (x : Binary64) (decimals : Nat) : mentions (x.fixed decimals) = [] := by
  rcases opens_and_closes with ⟨hopens, -, hnan, hinfinite, -, -⟩
  cases x with
  | nan => exact hnan
  | number negative m hm =>
    have hsign : ∀ text, mentions (Binary64.signText negative ++ text) = mentions text := by
      intro text
      cases negative with
      | false => exact congrArg mentions String.empty_append
      | true => exact mentions_append_of_opens (hopens "-" (by simp)) text
    rw [Binary64.fixed, hsign]
    split_ifs
    · exact hinfinite
    · exact mentions_pointed _ fun _ hc => absurd hc List.not_mem_nil
    · exact mentions_pointed _ (Json.isDigit_padded _ _)

/-! ## Lists and justifications -/

namespace Enforcement

/-- A list of categories with percentages reads as that list. -/
theorem mentions_namedWithPercent (p : Probabilities) (threshold : Binary64) :
    mentions (namedWithPercent p threshold) = listing (p.above threshold) := by
  rcases opens_and_closes with ⟨hopens, hcloses, -, -, hnone, -⟩
  have hentry : ∀ c value, mentions (c.name ++ " (" ++ percent value ++ ")") = [.category c] := by
    intro c value
    rw [mentions_append_of_closes _ (hcloses ")" (by simp)),
      mentions_between (hopens " (" (by simp)) (hcloses " (" (by simp)), percent,
      mentions_append_of_closes _ (hcloses "%" (by simp)), mentions_fixed, mentions_name,
      List.append_nil]
  rw [namedWithPercent, Probabilities.filter_entries, ← Probabilities.above_eq_filter, listing]
  simp only [List.isEmpty_iff, List.map_eq_nil_iff]
  split_ifs
  · exact hnone
  · rw [mentions_intercalate (hopens ", " (by simp)) (hcloses ", " (by simp)), List.map_map,
      List.flatMap_map]
    simp only [Function.comp_apply, hentry]
    exact List.map_eq_flatMap.symm

/-- What a justification says about categories is what the list in it says. -/
theorem mentions_justify (decision : Decision) (score : Binary64) (p : Probabilities) :
    mentions (justify decision score p) =
      match decision with
      | .allow => []
      | .warn => listing (p.above mentionedAbove)
      | .block => listing (p.above detectedAbove) := by
  rcases opens_and_closes with ⟨hopens, hcloses, -, -, -, hallowed⟩
  have hscore : ∀ text, mentions ("Risk score " ++ score.fixed 1 ++ "/10 " ++ text) =
      mentions text := by
    intro text
    rw [mentions_between (hopens "/10 " (by simp)) (hcloses "/10 " (by simp)),
      mentions_append_of_opens (hopens "Risk score " (by simp)), mentions_fixed, List.nil_append]
  unfold justify
  rw [hscore]
  cases decision with
  | allow => exact hallowed
  | warn =>
    rw [mentions_append_of_closes _ (hcloses _ (by simp)),
      mentions_append_of_opens (hopens _ (by simp)), mentions_namedWithPercent]
  | block =>
    rw [mentions_append_of_closes _ (hcloses _ (by simp)),
      mentions_append_of_opens (hopens _ (by simp)), mentions_namedWithPercent]

end Enforcement

/-! ## Risk factors -/

namespace RiskAssessment

/-- A category as a risk factor names that category. -/
theorem mentions_categoryFactor (c : Category) (probability : Binary64) :
    mentions (categoryFactor c probability) = [.category c] := by
  rcases opens_and_closes with ⟨hopens, hcloses, -⟩
  rw [categoryFactor, mentions_append_of_closes _ (hcloses ")" (by simp)),
    mentions_between (hopens " (prob=" (by simp)) (hcloses " (prob=" (by simp)), mentions_fixed,
    mentions_name, List.append_nil]

theorem riskFactors_above (p : Probabilities) (importance : Option Importance) :
    riskFactors p importance =
      (p.above notableProbability).map (fun c => categoryFactor c (p.probability c)) ++
        importance.elim [] fun importance =>
          (importance.top notableFeatureLimit notableImportance).map
            fun (name, weight) => featureFactor name weight := by
  unfold riskFactors
  rw [Probabilities.filter_entries, ← Probabilities.above_eq_filter, List.map_map]
  cases importance <;> rfl

end RiskAssessment

/-! ## The record -/

theorem Probabilities.above_eq_filter_probability (p : Probabilities) {threshold : Binary64}
    (hthreshold : 0 ≤ threshold) :
    p.above threshold = Category.all.filter fun c => threshold < p.probability c := by
  rw [above_eq_filter]
  apply List.filter_congr
  intro c _
  rw [Bool.eq_iff_iff, any_get_iff hthreshold, decide_eq_true_iff]

theorem Probabilities.above_sublist_above (p : Probabilities) {lower upper : Binary64}
    (hlower : 0 ≤ lower) (h : lower ≤ upper) : (p.above upper).Sublist (p.above lower) := by
  rw [above_eq_filter_probability p hlower,
    above_eq_filter_probability p (Binary64.le_trans hlower h)]
  apply List.monotone_filter_right
  intro c hc
  exact decide_eq_true (Binary64.lt_of_le_of_lt h (of_decide_eq_true hc))

namespace Enforcement

/-- Whatever the thresholds, the score and the probabilities are, what is detected are the
categories above 0.5 in canonical order. Where a unit is blocked, the justification names these in
this order, or says that there are none. Where there is a warning, it names those above 0.3 instead,
with all that are detected among them, or says that there are none. In a whole run the risk factors
of the assessment start with one that names it for each category that is detected, in the same
order, with its probability. The most important features follow, each by its name and with its
weight. -/
theorem enforce_names (thresholds : Thresholds) (score : Binary64) (p : Probabilities) :
    let result := enforce thresholds score p
    let mentioned := Category.all.filter fun c => (0.3 : Binary64) < p.probability c
    result.detectedVulnerabilities =
      Category.all.filter (fun c => (0.5 : Binary64) < p.probability c) ∧
    (result.decision = .block →
      mentions result.justification = listing result.detectedVulnerabilities) ∧
    (result.decision = .warn → mentions result.justification = listing mentioned) ∧
    result.detectedVulnerabilities.Sublist mentioned ∧
    ∀ weights importance,
      let risk := RiskAssessment.calculate weights p importance
      let detected := (ofAssessment thresholds risk).detectedVulnerabilities
      let factor := fun c : Category =>
        c.name ++ " (prob=" ++ (p.sanitized.probability c).fixed 2 ++ ")"
      detected = p.sanitized.above 0.5 ∧ (∀ c, mentions (factor c) = [.category c]) ∧
      risk.topRiskFactors = detected.map factor ++ importance.elim [] fun importance =>
        (importance.top 3 0.1).map fun feature =>
          feature.1 ++ " (importance=" ++ feature.2.fixed 2 ++ ")" := by
  intro result mentioned
  have hlevels : mentionedAbove ≤ detectedAbove := by decide +kernel
  have hmentioned : p.above mentionedAbove = mentioned :=
    p.above_eq_filter_probability mentionedAbove_nonneg
  have htext : ∀ decision, result.decision = decision →
      mentions result.justification = mentions (justify decision score p) := by
    rintro _ rfl
    rfl
  refine ⟨p.above_eq_filter_probability detectedAbove_nonneg, ?_, ?_, ?_, ?_⟩
  · intro hblock
    rw [htext _ hblock, mentions_justify]
    rfl
  · intro hwarn
    rw [htext _ hwarn, mentions_justify, ← hmentioned]
  · rw [← hmentioned]
    exact p.above_sublist_above mentionedAbove_nonneg hlevels
  · intro weights importance risk detected factor
    exact ⟨rfl, fun c => RiskAssessment.mentions_categoryFactor c _,
      RiskAssessment.riskFactors_above p.sanitized importance⟩

/-- What is not a number is never named, and what is infinite always is. -/
theorem enforce_names_unruly :
    let p : Probabilities := ⟨some 0.9, some 0.4, some .nan, some (.infinity false)⟩
    let blocked := enforce {} 8 p
    let warned := enforce {} 4 p
    let unfounded := enforce {} 8 .empty
    (blocked.decision = .block ∧
      blocked.justification = "Risk score 8.0/10 exceeds safety threshold. High probability of: " ++
        "reentrancy (90%), dangerous_construct (inf%). Deployment blocked to prevent potential " ++
        "exploits." ∧
      mentions blocked.justification = [.category .reentrancy, .category .dangerousConstruct]) ∧
    (warned.decision = .warn ∧ mentions warned.justification =
      [.category .reentrancy, .category .uncheckedExternalCall, .category .dangerousConstruct]) ∧
    (unfounded.decision = .block ∧ mentions unfounded.justification = [.nothing]) := by
  intro p blocked warned unfounded
  have hgiven : (blocked.decision = .block ∧
      blocked.justification = "Risk score 8.0/10 exceeds safety threshold. High probability of: " ++
        "reentrancy (90%), dangerous_construct (inf%). Deployment blocked to prevent potential " ++
        "exploits." ∧ blocked.detectedVulnerabilities = [.reentrancy, .dangerousConstruct]) ∧
      (warned.decision = .warn ∧ Category.all.filter (fun c => (0.3 : Binary64) < p.probability c) =
        [.reentrancy, .uncheckedExternalCall, .dangerousConstruct]) ∧
      unfounded.decision = .block ∧ unfounded.detectedVulnerabilities = [] := by
    decide +kernel
  rcases hgiven with ⟨⟨hblock, htext, hdetected⟩, ⟨hwarn, hmentioned⟩, hblock', hnone⟩
  have hblocked := (enforce_names {} 8 p).2.1 hblock
  have hwarned := (enforce_names {} 4 p).2.2.1 hwarn
  have hunfounded := (enforce_names {} 8 .empty).2.1 hblock'
  rw [hdetected] at hblocked
  rw [hmentioned] at hwarned
  rw [hnone] at hunfounded
  exact ⟨⟨hblock, htext, hblocked⟩, ⟨hwarn, hwarned⟩, hblock', hunfounded⟩

end Enforcement

end RiskGate

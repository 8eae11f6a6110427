import RiskGate.Policy.Remediation
import RiskGate.Proofs.Listing

/-! # Advice

A unit gets the first lines of what is advised for the categories that were detected in it, each
line once.

* `adviceFor_eq_singleton_iff`: the advice is generic exactly if nothing was detected;
* `advice_isPrefix_adviceFor`: the category that is listed first has all its lines in front;
* `adviceFor_insert`: a category that is listed again adds nothing;
* `adviceFor_firstLines`: the advice for any list of categories.
-/

namespace RiskGate

namespace Category

theorem nodup_advice (c : Category) : c.advice.Nodup := by cases c <;> decide +kernel

theorem length_advice (c : Category) : c.advice.length = 4 := by cases c <;> rfl

theorem adviceWithoutFindings_notMem (c : Category) : adviceWithoutFindings ∉ c.advice := by
  cases c <;> simp [adviceWithoutFindings, advice]

end Category

/-! ## Which lines are given -/

theorem adviceFor_of_ne_nil {detected : List Category} (h : detected ≠ []) :
    adviceFor detected = (firstOccurrences (detected.flatMap (·.advice))).take adviceLimit :=
  if_neg (by rwa [List.isEmpty_iff])

/-- The generic line is advised for no category, so it comes alone. -/
theorem adviceWithoutFindings_notMem_adviceFor {detected : List Category} (h : detected ≠ []) :
    adviceWithoutFindings ∉ adviceFor detected := by
  rw [adviceFor_of_ne_nil h]
  intro hmem
  rcases List.mem_flatMap.mp (mem_firstOccurrences.mp (List.mem_of_mem_take hmem)) with ⟨c, -, hc⟩
  exact c.adviceWithoutFindings_notMem hc

theorem adviceFor_eq_singleton_iff {detected : List Category} :
    adviceFor detected = [adviceWithoutFindings] ↔ detected = [] := by
  constructor
  · intro h
    by_contra hne
    apply adviceWithoutFindings_notMem_adviceFor hne
    rw [h]
    exact List.mem_singleton_self _
  · rintro rfl
    rfl

theorem nodup_adviceFor (detected : List Category) : (adviceFor detected).Nodup := by
  by_cases h : detected = []
  · rw [adviceFor_eq_singleton_iff.mpr h]
    exact List.nodup_singleton _
  · rw [adviceFor_of_ne_nil h]
    exact (nodup_firstOccurrences _).sublist (List.take_sublist _ _)

/-- The lines for the category that is listed first are new and below the limit. -/
theorem advice_isPrefix_adviceFor (c : Category) (rest : List Category) :
    c.advice <+: adviceFor (c :: rest) := by
  rw [adviceFor_of_ne_nil (List.cons_ne_nil c rest), List.flatMap_cons, firstOccurrences_append,
    firstOccurrences_of_nodup c.nodup_advice, List.take_append, List.take_of_length_le]
  · exact List.prefix_append _ _
  · rw [c.length_advice]
    decide

theorem length_adviceFor_pos (detected : List Category) : 1 ≤ (adviceFor detected).length := by
  cases detected with
  | nil => exact Nat.le_refl 1
  | cons c rest =>
    have hlength := (advice_isPrefix_adviceFor c rest).length_le
    rw [c.length_advice] at hlength
    omega

theorem length_adviceFor_le (detected : List Category) :
    (adviceFor detected).length ≤ adviceLimit := by
  by_cases h : detected = []
  · rw [adviceFor_eq_singleton_iff.mpr h]
    decide
  · rw [adviceFor_of_ne_nil h]
    exact List.length_take_le _ _

/-- The lines of a category that is listed already are no news. -/
theorem adviceFor_insert {c : Category} {before : List Category} (hc : c ∈ before)
    (after : List Category) : adviceFor (before ++ c :: after) = adviceFor (before ++ after) := by
  have hne : ∀ rest : List Category, before ++ rest ≠ [] := fun rest =>
    List.append_ne_nil_of_left_ne_nil (List.ne_nil_of_mem hc) rest
  have hseen : ∀ line ∈ c.advice, line ∈ before.flatMap (·.advice) := fun line hline =>
    List.mem_flatMap.mpr ⟨c, hc, hline⟩
  rw [adviceFor_of_ne_nil (hne _), adviceFor_of_ne_nil (hne _), List.flatMap_append,
    List.flatMap_append, List.flatMap_cons, firstOccurrences_insert hseen]

/-! ## Advice for any list -/

/-- Whatever categories are listed, in any order and however often, there are one to five lines of
advice, all different. If none is listed, it is the generic line, which is not given otherwise. Else
the lines are the first five of all that is advised, with what was said before struck out, in the
order in which they are said first. All that is advised for the category listed first is among them,
and listing a category again makes no difference. -/
theorem adviceFor_firstLines (detected : List Category) :
    let lines := detected.flatMap (·.advice)
    (1 ≤ (adviceFor detected).length ∧ (adviceFor detected).length ≤ 5) ∧
    (adviceFor detected).Nodup ∧
    (detected = [] → adviceFor detected = [adviceWithoutFindings]) ∧
    (detected ≠ [] → adviceWithoutFindings ∉ adviceFor detected ∧
      adviceFor detected = lines.eraseDups.take 5 ∧
      (adviceFor detected).Pairwise fun line later => lines.idxOf line < lines.idxOf later) ∧
    (∀ c rest, detected = c :: rest → ∀ line ∈ c.advice, line ∈ adviceFor detected) ∧
    ∀ c before after, detected = before ++ after → c ∈ before →
      adviceFor (before ++ c :: after) = adviceFor detected := by
  intro lines
  refine ⟨⟨length_adviceFor_pos detected, length_adviceFor_le detected⟩, nodup_adviceFor detected,
    adviceFor_eq_singleton_iff.mpr, ?_, ?_, ?_⟩
  · intro hne
    refine ⟨adviceWithoutFindings_notMem_adviceFor hne, ?_, ?_⟩
    · rw [adviceFor_of_ne_nil hne, firstOccurrences_eq_eraseDups]
      rfl
    · rw [adviceFor_of_ne_nil hne]
      exact (pairwise_idxOf_firstOccurrences lines).sublist (List.take_sublist _ _)
  · rintro c rest rfl line hline
    exact (advice_isPrefix_adviceFor c rest).subset hline
  · rintro c before after rfl hc
    exact adviceFor_insert hc after

/-- Two categories have more lines than are given, so that one line of the second is left. The first
may be listed once more at the end. -/
theorem adviceFor_firstLines_two :
    let detected := [Category.uncheckedExternalCall, .dangerousConstruct]
    let lines := detected.flatMap (·.advice)
    detected ≠ [] ∧ adviceFor detected = lines.eraseDups.take 5 ∧
      adviceFor detected = Category.uncheckedExternalCall.advice ++
        ["Replace tx.origin with msg.sender for authentication"] ∧
      Category.uncheckedExternalCall ∈ detected ∧
      adviceFor (detected ++ [.uncheckedExternalCall]) = adviceFor detected := by
  intro detected lines
  have hne : detected ≠ [] := List.cons_ne_nil _ _
  have hlisted : Category.uncheckedExternalCall ∈ detected := List.mem_cons_self
  have hvalue : adviceFor detected = Category.uncheckedExternalCall.advice ++
      ["Replace tx.origin with msg.sender for authentication"] := by
    decide +kernel
  rcases adviceFor_firstLines detected with ⟨-, -, -, hlines, -, hagain⟩
  exact ⟨hne, (hlines hne).2.1, hvalue, hlisted,
    hagain _ detected [] (List.append_nil _).symm hlisted⟩

end RiskGate

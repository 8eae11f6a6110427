import Mathlib

/-! # The words of a text

A text is read by its words, whatever stands between them.

* `words_append_of_ends` and `words_append_of_starts`: a text that is put together apart from words
  has the words of its parts;
* `words_ofList_eq_nil` and `isBreak_of_isDigit`: digits are no words.
-/

namespace RiskGate

/-- The characters between words: all but letters and underscores. -/
def isBreak (c : Char) : Bool := !(c.isAlpha || c == '_')

/-- The words of a text in their order: its longest runs of letters and underscores. -/
def words (text : String) : List String :=
  ((text.toList.splitOnP isBreak).filter (· ≠ [])).map String.ofList

/-- The first character is no part of a word. -/
def StartsApart (text : String) : Prop := text.toList.head?.any isBreak = true

/-- The last character is no part of a word. -/
def EndsApart (text : String) : Prop := text.toList.getLast?.any isBreak = true

instance (text : String) : Decidable (StartsApart text) := inferInstanceAs (Decidable (_ = true))

instance (text : String) : Decidable (EndsApart text) := inferInstanceAs (Decidable (_ = true))

theorem startsApart_iff {text : String} :
    StartsApart text ↔ ∃ c rest, text.toList = c :: rest ∧ isBreak c = true := by
  rw [StartsApart, Option.any_eq_true]
  constructor
  · rintro ⟨c, hhead, hc⟩
    rcases List.head?_eq_some_iff.mp hhead with ⟨rest, htext⟩
    exact ⟨c, rest, htext, hc⟩
  · rintro ⟨c, rest, htext, hc⟩
    exact ⟨c, List.head?_eq_some_iff.mpr ⟨rest, htext⟩, hc⟩

theorem endsApart_iff {text : String} :
    EndsApart text ↔ ∃ front c, text.toList = front ++ [c] ∧ isBreak c = true := by
  rw [EndsApart, Option.any_eq_true]
  constructor
  · rintro ⟨c, hlast, hc⟩
    rcases List.getLast?_eq_some_iff.mp hlast with ⟨front, htext⟩
    exact ⟨front, c, htext, hc⟩
  · rintro ⟨front, c, htext, hc⟩
    exact ⟨c, List.getLast?_eq_some_iff.mpr ⟨front, htext⟩, hc⟩

theorem StartsApart.append {a : String} (h : StartsApart a) (b : String) :
    StartsApart (a ++ b) := by
  rcases startsApart_iff.mp h with ⟨c, rest, ha, hc⟩
  refine startsApart_iff.mpr ⟨c, rest ++ b.toList, ?_, hc⟩
  rw [String.toList_append, ha, List.cons_append]

theorem EndsApart.append {b : String} (h : EndsApart b) (a : String) : EndsApart (a ++ b) := by
  rcases endsApart_iff.mp h with ⟨front, c, hb, hc⟩
  refine endsApart_iff.mpr ⟨a.toList ++ front, c, ?_, hc⟩
  rw [String.toList_append, hb, List.append_assoc]

/-! ## Texts put together -/

/-- The characters at which a text is split belong to no word. -/
theorem words_split {text : String} {front rest : List Char} {c : Char}
    (htext : text.toList = front ++ c :: rest) (hc : isBreak c = true) :
    words text = words (String.ofList front) ++ words (String.ofList rest) := by
  rw [words, words, words, htext, String.toList_ofList, String.toList_ofList,
    List.splitOnP_append_cons _ _ hc, List.filter_append, List.map_append]

theorem words_empty : words "" = [] := by decide +kernel

theorem words_append_of_ends {a : String} (h : EndsApart a) (b : String) :
    words (a ++ b) = words a ++ words b := by
  rcases endsApart_iff.mp h with ⟨front, c, ha, hc⟩
  have hab : (a ++ b).toList = front ++ c :: b.toList := by
    rw [String.toList_append, ha, List.append_assoc, List.singleton_append]
  rw [words_split hab hc, words_split ha hc, String.ofList_toList, String.ofList_nil, words_empty,
    List.append_nil]

theorem words_append_of_starts (a : String) {b : String} (h : StartsApart b) :
    words (a ++ b) = words a ++ words b := by
  rcases startsApart_iff.mp h with ⟨c, rest, hb, hc⟩
  have hab : (a ++ b).toList = a.toList ++ c :: rest := by
    rw [String.toList_append, hb]
  have hb' : b.toList = [] ++ c :: rest := hb
  rw [words_split hab hc, words_split hb' hc, String.ofList_toList, String.ofList_nil, words_empty,
    List.nil_append]

/-- A text without any letter has no words. -/
theorem words_ofList_eq_nil {cs : List Char} (h : ∀ c ∈ cs, isBreak c = true) :
    words (String.ofList cs) = [] := by
  induction cs with
  | nil => exact words_empty
  | cons c cs ih =>
    have hsplit : (String.ofList (c :: cs)).toList = [] ++ c :: cs := String.toList_ofList
    rw [words_split hsplit (h c List.mem_cons_self), String.ofList_nil, words_empty,
      List.nil_append]
    exact ih fun d hd => h d (List.mem_cons_of_mem c hd)

theorem isBreak_of_isDigit {c : Char} (h : c.isDigit = true) : isBreak c = true := by
  have hle : c.toNat ≤ 57 := by
    simp only [Char.isDigit, Bool.and_eq_true, decide_eq_true_eq] at h
    exact UInt32.le_iff_toNat_le.mp h.2
  have hne : c ≠ '_' := by
    rintro rfl
    exact absurd hle (by decide)
  -- letters have greater codes
  simp only [isBreak, Char.isAlpha, Char.isUpper, Char.isLower, UInt32.le_iff_toNat_le,
    Bool.not_eq_true', Bool.or_eq_false_iff, Bool.and_eq_false_iff, decide_eq_false_iff_not,
    beq_eq_false_iff_ne]
  refine ⟨⟨fun hupper => ?_, .inl fun hlower => ?_⟩, hne⟩
  · exact absurd (Nat.le_trans hupper.1 hle) (by decide)
  · exact absurd (Nat.le_trans hlower hle) (by decide)

end RiskGate

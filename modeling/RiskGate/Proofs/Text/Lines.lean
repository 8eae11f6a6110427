import RiskGate.Proofs.Text.Bytes

/-! # The lines of a text

A text that is put together from others may have more lines than were meant, if one of these holds
a line break.

* `labelled`: the lines of a text that begin with a label; `continued`: those among them that follow
  a line break in the text;
* `labelled_append_of_apart`: behind a front that cannot pass for the label, only what follows a
  line break begins with it;
* `labelled_of_prefix`: a text of one line that begins with the label is such a line;
* `labelled_join`: the lines of several texts, each ended by a break.
-/

namespace RiskGate

/-! ## Texts of one line -/

/-- A text without a line break. -/
def OneLine (text : String) : Prop := '\n' ∉ text.toList

instance (text : String) : Decidable (OneLine text) := inferInstanceAs (Decidable (¬ _))

@[simp] theorem oneLine_append {a b : String} : OneLine (a ++ b) ↔ OneLine a ∧ OneLine b := by
  simp [OneLine]

theorem oneLine_intercalate {separator : String} (hseparator : OneLine separator)
    {texts : List String} (h : ∀ text ∈ texts, OneLine text) :
    OneLine (separator.intercalate texts) := by
  induction texts with
  | nil => simp [OneLine]
  | cons text texts ih =>
    obtain ⟨htext, hrest⟩ := List.forall_mem_cons.mp h
    cases texts with
    | nil => rwa [String.intercalate_singleton]
    | cons next texts =>
      rw [String.intercalate_cons_cons, oneLine_append, oneLine_append]
      exact ⟨⟨htext, hseparator⟩, ih hrest⟩

/-- The byte of a line break is one that long texts are quickly searched for. -/
theorem oneLine_of_utf8 {text : String} (h : 10 ∉ utf8 text) : OneLine text := by
  rw [utf8_eq_flatMap] at h
  exact fun hbreak => h (List.mem_flatMap.mpr ⟨'\n', hbreak, by decide⟩)

theorem oneLine_ofList_digits {digits : List Char} (h : ∀ c ∈ digits, c.isDigit = true) :
    OneLine (String.ofList digits) := by
  rw [OneLine, String.toList_ofList]
  exact fun hbreak => absurd (h _ hbreak) (by decide)

/-! ## Lines -/

/-- The lines of a text, without the breaks between them. -/
def linesOf (text : String) : List String := (text.toList.splitOn '\n').map String.ofList

theorem exists_linesOf (text : String) : ∃ line lines, linesOf text = line :: lines := by
  apply List.exists_cons_of_ne_nil
  simp [linesOf]

theorem linesOf_of_oneLine {text : String} (h : OneLine text) : linesOf text = [text] := by
  rw [linesOf, List.splitOn_eq_singleton h, List.map_singleton, String.ofList_toList]

theorem splitOn_append_of_notMem {α : Type} [BEq α] [LawfulBEq α] {a : α} {xs : List α}
    (h : a ∉ xs) (ys : List α) :
    (xs ++ ys).splitOn a = (ys.splitOn a).modifyHead (xs ++ ·) := by
  obtain ⟨first, rest, hsplit⟩ := List.exists_cons_of_ne_nil (List.splitOn_ne_nil a ys)
  induction xs with
  | nil => simp [hsplit]
  | cons x xs ih =>
    obtain ⟨hx, hxs⟩ := not_or.mp (mt List.mem_cons.mpr h)
    have hne : ¬ (x == a) = true := fun heq => hx (eq_of_beq heq).symm
    rw [List.cons_append, List.splitOn_cons_eq_if_modifyHead, if_neg hne, ih hxs, hsplit]
    rfl

/-- The first line of what follows goes on with a text of one line. -/
theorem linesOf_append {a b line : String} {lines : List String} (h : OneLine a)
    (hb : linesOf b = line :: lines) : linesOf (a ++ b) = (a ++ line) :: lines := by
  obtain ⟨first, rest, hsplit⟩ := List.exists_cons_of_ne_nil (List.splitOn_ne_nil '\n' b.toList)
  rw [linesOf, hsplit, List.map_cons] at hb
  obtain ⟨rfl, rfl⟩ := List.cons.inj hb
  rw [linesOf, String.toList_append, splitOn_append_of_notMem h, hsplit, List.modifyHead_cons,
    List.map_cons, String.ofList_append, String.ofList_toList]

theorem linesOf_append_break (a b : String) :
    linesOf (a ++ "\n" ++ b) = linesOf a ++ linesOf b := by
  have hchars : (a ++ "\n" ++ b).toList = a.toList ++ '\n' :: b.toList := by simp
  rw [linesOf, hchars, List.splitOn_append_cons_self, List.map_append]
  rfl

/-! ## Lines that begin with a label -/

/-- The lines that begin with a label. -/
def withLabel (label : String) (lines : List String) : List String :=
  lines.filter (label.toList <+: ·.toList)

/-- The lines of a text that begin with a label. -/
def labelled (label text : String) : List String := withLabel label (linesOf text)

/-- The lines of a text that begin with a label and follow a line break in the text. -/
def continued (label text : String) : List String := withLabel label (linesOf text).tail

/-- The front of a line that cannot pass for the label, whatever follows. -/
structure Apart (label front : String) : Prop where
  oneLine : OneLine front
  not_label : ¬ label.toList <+: front.toList
  not_front : ¬ front.toList <+: label.toList

instance (label front : String) : Decidable (Apart label front) :=
  decidable_of_iff
    (OneLine front ∧ ¬ label.toList <+: front.toList ∧ ¬ front.toList <+: label.toList)
    ⟨fun ⟨h, h', h''⟩ => ⟨h, h', h''⟩, fun ⟨h, h', h''⟩ => ⟨h, h', h''⟩⟩

variable {label : String}

theorem continued_of_oneLine {text : String} (h : OneLine text) : continued label text = [] := by
  rw [continued, linesOf_of_oneLine h]
  rfl

/-- Behind a front that is apart from the label, only a line after a break begins with it. -/
theorem labelled_append_of_apart {front : String} (h : Apart label front) (rest : String) :
    labelled label (front ++ rest) = continued label rest := by
  obtain ⟨line, lines, hlines⟩ := exists_linesOf rest
  have hfirst : ¬ label.toList <+: (front ++ line).toList := by
    intro hlabel
    rw [String.toList_append] at hlabel
    rcases List.prefix_or_prefix_of_prefix hlabel (List.prefix_append _ _) with hpre | hpre
    · exact h.not_label hpre
    · exact h.not_front hpre
  rw [labelled, continued, linesOf_append h.oneLine hlines, hlines, withLabel,
    List.filter_cons_of_neg (by simpa using hfirst)]
  rfl

theorem labelled_of_apart {front : String} (h : Apart label front) : labelled label front = [] := by
  rw [← String.append_empty (s := front), labelled_append_of_apart h]
  rfl

/-- A line of its own. -/
theorem labelled_of_prefix {rest : String} (h : OneLine (label ++ rest)) :
    labelled label (label ++ rest) = [label ++ rest] := by
  rw [labelled, linesOf_of_oneLine h, withLabel, List.filter_cons_of_pos (by simp)]
  rfl

/-- The lines of ended texts are those of each of them. -/
theorem labelled_join (hlabel : label ≠ "") (texts : List String) :
    labelled label (String.join (texts.map (· ++ "\n"))) = texts.flatMap (labelled label) := by
  induction texts with
  | nil =>
    rw [List.map_nil, String.join_nil, List.flatMap_nil, labelled, linesOf_of_oneLine (by decide),
      withLabel, List.filter_cons_of_neg (by simpa using hlabel), List.filter_nil]
  | cons text texts ih =>
    rw [List.map_cons, String.join_cons, labelled, linesOf_append_break, withLabel,
      List.filter_append, List.flatMap_cons, ← ih]
    rfl

end RiskGate

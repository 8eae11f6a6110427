import Mathlib
import RiskGate.Json.Reader
import RiskGate.Json.Writer

/-! # Written and read back

A document is read back from what the writer makes of it, whatever the layout: numbers with their
digits, strings with all their characters.

* `digitRun_append`, `readNumber_written`: numbers end where they are meant to end;
* `readString_quoted`: escapes stand for the characters that they replace;
* `readElements_render` and `readMembers_render`: what follows the opening of a container;
* `ofText?_render`: whole documents.
-/

namespace RiskGate.Json

/-- A document that is written without loss: every string denotes a text, and digits follow the
point of a number. -/
inductive Writable : Json → Prop where
  | null : Writable .null
  | bool (value : Bool) : Writable (.bool value)
  | number {literal : Number} (digits : ∀ c ∈ literal.fraction, c.isDigit = true) :
    Writable (.number literal)
  | text (s : String) : Writable (.text s)
  | array {elements : List Json} (each : ∀ element ∈ elements, Writable element) :
    Writable (.array elements)
  | object {members : List (Option String × Json)}
    (keys : ∀ member ∈ members, member.1.isSome = true)
    (values : ∀ member ∈ members, Writable member.2) : Writable (.object members)

/-! ## Blanks -/

/-- The characters that may stand between tokens. -/
def IsBlank (c : Char) : Prop := c = ' ' ∨ c = '\t' ∨ c = '\n' ∨ c = '\r'

instance (c : Char) : Decidable (IsBlank c) :=
  inferInstanceAs (Decidable (c = ' ' ∨ c = '\t' ∨ c = '\n' ∨ c = '\r'))

/-- A layout of blanks. -/
structure Layout.Blank (layout : Layout) : Prop where
  lineBreak : ∀ depth, ∀ c ∈ layout.lineBreak depth, IsBlank c
  afterColon : ∀ c ∈ layout.afterColon, IsBlank c

theorem Layout.blank_compact : Layout.compact.Blank :=
  ⟨fun _ _ h => (List.not_mem_nil h).elim, fun _ h => (List.not_mem_nil h).elim⟩

theorem Layout.blank_indented : Layout.indented.Blank := by
  constructor
  · intro depth c hc
    simp only [Layout.indented, List.mem_cons, List.mem_replicate] at hc
    rcases hc with rfl | ⟨-, rfl⟩
    · exact .inr (.inr (.inl rfl))
    · exact .inl rfl
  · intro c hc
    simp only [Layout.indented, List.mem_singleton] at hc
    exact .inl hc

theorem skipBlanks_append {blanks : List Char} (h : ∀ c ∈ blanks, IsBlank c) (rest : List Piece) :
    skipBlanks (blanks.map .char ++ rest) = skipBlanks rest := by
  induction blanks with
  | nil => rfl
  | cons c blanks ih =>
    have hrest := ih fun d hd => h d (List.mem_cons_of_mem c hd)
    exact (if_pos (h c List.mem_cons_self)).trans hrest

theorem skipBlanks_char {c : Char} (h : ¬ IsBlank c) (rest : List Piece) :
    skipBlanks (.char c :: rest) = .char c :: rest :=
  if_neg h

/-! ## Numbers -/

/-- Where a number ends: nothing follows that could belong to it. -/
def NumberEnd : List Piece → Prop
  | .char c :: _ => c.isDigit = false ∧ c ≠ '.' ∧ c ≠ 'e' ∧ c ≠ 'E'
  | _ => True

theorem numberEnd_of_blank {c : Char} (h : IsBlank c) (rest : List Piece) :
    NumberEnd (.char c :: rest) := by
  rcases h with rfl | rfl | rfl | rfl <;> exact ⟨by decide, by decide, by decide, by decide⟩

theorem numberEnd_append {blanks : List Char} (h : ∀ c ∈ blanks, IsBlank c) {rest : List Piece}
    (hrest : NumberEnd rest) : NumberEnd (blanks.map .char ++ rest) := by
  cases blanks with
  | nil => exact hrest
  | cons c blanks => exact numberEnd_of_blank (h c List.mem_cons_self) _

/-- Where a run of digits ends. -/
def DigitsEnd : List Piece → Prop
  | .char c :: _ => c.isDigit = false
  | _ => True

theorem NumberEnd.digitsEnd {rest : List Piece} (h : NumberEnd rest) : DigitsEnd rest := by
  match rest, h with
  | [], _ => exact trivial
  | .stray _ :: _, _ => exact trivial
  | .char _ :: _, h => exact h.1

theorem digitRun_append {digits : List Char} (h : ∀ c ∈ digits, c.isDigit = true)
    {rest : List Piece} (hrest : DigitsEnd rest) :
    digitRun (digits.map .char ++ rest) = (digits, rest) := by
  induction digits with
  | nil =>
    match rest, hrest with
    | [], _ => rfl
    | .stray _ :: _, _ => rfl
    | .char c :: rest, hc =>
      rw [List.map_nil, List.nil_append, digitRun, if_neg (by rw [hc]; decide)]
  | cons c digits ih =>
    have hrun := ih fun d hd => h d (List.mem_cons_of_mem c hd)
    rw [List.map_cons, List.cons_append, digitRun, if_pos (h c List.mem_cons_self), hrun]

/-- Only zero is written with a zero in front. -/
theorem eq_zero_of_head?_toDigits {n : Nat} (h : (Nat.toDigits 10 n).head? = some '0') : n = 0 := by
  induction n using Nat.strongRecOn with
  | _ n ih =>
    by_cases hsmall : n < 10
    · rw [Nat.toDigits_of_lt_base hsmall] at h
      exact Nat.digitChar_eq_zero.mp (Option.some.inj h)
    · rw [Nat.toDigits_of_base_le (by decide) (Nat.not_lt.mp hsmall),
        List.head?_append, Option.or_of_isSome (by simp [Nat.toDigits_ne_nil])] at h
      have hquotient := ih (n / 10) (by omega) h
      omega

theorem isDigit_of_mem_toDigits {n : Nat} : ∀ c ∈ Nat.toDigits 10 n, c.isDigit = true :=
  fun _ hc => Nat.isDigit_of_mem_toDigits (by decide) (by decide) hc

/-- What is written for the digits after the point. -/
def fractionText (fraction : List Char) : List Char :=
  if fraction.isEmpty then [] else '.' :: fraction

/-- What is written for the power of ten. -/
def exponentText : Option Int → List Char
  | none => []
  | some e => 'e' :: (if e < 0 then '-' else '+') :: Nat.toDigits 10 e.natAbs

theorem Number.written_eq (n : Number) :
    n.written = (if n.negative then ['-'] else []) ++
      (Nat.toDigits 10 n.integral ++ (fractionText n.fraction ++ exponentText n.exponent)) := by
  rw [← List.append_assoc, ← List.append_assoc]
  cases n with
  | mk negative integral fraction exponent =>
    cases exponent with
    | none => rfl
    | some e => rfl

theorem readExponent_append (exponent : Option Int) {rest : List Piece} (hrest : NumberEnd rest) :
    readExponent ((exponentText exponent).map .char ++ rest) = some (exponent, rest) := by
  cases exponent with
  | none =>
    match rest, hrest with
    | [], _ => rfl
    | .stray _ :: _, _ => rfl
    | .char c :: rest, ⟨_, _, hlower, hupper⟩ => simp [exponentText, readExponent, hlower, hupper]
  | some e =>
    have hrun := digitRun_append (isDigit_of_mem_toDigits (n := e.natAbs)) hrest.digitsEnd
    by_cases hneg : e < 0
    · simp [exponentText, readExponent, hneg, hrun, Nat.toDigits_ne_nil, abs_of_neg hneg]
    · have habs := abs_of_nonneg (Int.not_lt.mp hneg)
      simp [exponentText, readExponent, hneg, hrun, Nat.toDigits_ne_nil, habs]

/-- An exponent starts with a letter, so digits end where it starts. -/
theorem digitsEnd_exponentText (exponent : Option Int) {rest : List Piece}
    (hrest : NumberEnd rest) : DigitsEnd ((exponentText exponent).map .char ++ rest) := by
  cases exponent with
  | none => exact hrest.digitsEnd
  | some e => exact rfl

theorem readFraction_append {fraction : List Char} (h : ∀ c ∈ fraction, c.isDigit = true)
    (exponent : Option Int) {rest : List Piece} (hrest : NumberEnd rest) :
    readFraction ((fractionText fraction).map .char ++
        ((exponentText exponent).map .char ++ rest)) =
      some (fraction, (exponentText exponent).map .char ++ rest) := by
  cases fraction with
  | cons c fraction =>
    have hrun := digitRun_append h (digitsEnd_exponentText exponent hrest)
    rw [List.map_cons, List.cons_append] at hrun
    simp [fractionText, readFraction, hrun]
  | nil =>
    cases exponent with
    | some e => rfl
    | none =>
      match rest, hrest with
      | [], _ => rfl
      | .stray _ :: _, _ => rfl
      | .char c :: rest, ⟨_, hpoint, _⟩ =>
        simp only [fractionText, exponentText, List.isEmpty_nil, if_true, List.map_nil,
          List.nil_append]
        unfold readFraction
        split
        · rename_i heq
          simp_all
        · rfl

/-- Digits end where the fraction or, without one, the exponent starts. -/
theorem digitsEnd_fractionText (fraction : List Char) (exponent : Option Int) {rest : List Piece}
    (hrest : NumberEnd rest) :
    DigitsEnd ((fractionText fraction).map .char ++
      ((exponentText exponent).map .char ++ rest)) := by
  cases fraction with
  | nil => exact digitsEnd_exponentText exponent hrest
  | cons c fraction => exact rfl

theorem readNumber_written {n : Number} (h : ∀ c ∈ n.fraction, c.isDigit = true)
    {rest : List Piece} (hrest : NumberEnd rest) :
    readNumber (n.written.map .char ++ rest) = some (n, rest) := by
  rcases n with ⟨negative, integral, fraction, exponent⟩
  replace h : ∀ c ∈ fraction, c.isDigit = true := h
  have hrun := digitRun_append (isDigit_of_mem_toDigits (n := integral))
    (digitsEnd_fractionText fraction exponent hrest)
  have hfraction := readFraction_append h exponent hrest
  have hexponent := readExponent_append exponent hrest
  have hvalue : Nat.ofDigitChars 10 (Nat.toDigits 10 integral) 0 = integral :=
    Nat.ofDigitChars_ten_toDigits
  cases hdigits : Nat.toDigits 10 integral with
  | nil => exact absurd hdigits Nat.toDigits_ne_nil
  | cons d digits =>
    have hsign : d ≠ '-' := by
      rintro rfl
      have hdigit := isDigit_of_mem_toDigits (n := integral) '-' (by simp [hdigits])
      exact absurd hdigit (by decide)
    -- the reader takes a zero in front of other digits for an error
    have hzero : d = '0' → digits = [] := by
      rintro rfl
      rw [eq_zero_of_head?_toDigits (congrArg List.head? hdigits), Nat.toDigits_zero] at hdigits
      exact (List.cons.inj hdigits).2.symm
    rw [hdigits] at hvalue
    rw [hdigits, List.map_cons, List.cons_append] at hrun
    cases negative with
    | true =>
      simpa [Number.written_eq, readNumber, hdigits, hrun, hfraction, hexponent, hvalue]
        using hzero
    | false =>
      simpa [Number.written_eq, readNumber, hdigits, hsign, hrun, hfraction, hexponent, hvalue]
        using hzero

/-! ## Strings -/

theorem hexDigit?_digitChar : ∀ d < 16, hexDigit? (Nat.digitChar d) = some d := by decide

theorem hexValue?_control {n : Nat} (h : n < 0x20) :
    hexValue? ['0', '0', Nat.digitChar (n / 16), Nat.digitChar (n % 16)] = some n := by
  have hhigh := hexDigit?_digitChar (n / 16) (by omega)
  have hlow := hexDigit?_digitChar (n % 16) (by omega)
  have hzero : hexDigit? '0' = some 0 := by decide
  have hvalue : 16 * (n / 16) + n % 16 = n := Nat.div_add_mod n 16
  simp [hexValue?, hhigh, hlow, hzero, hvalue]

/-- A letter after a backslash is read as the character that it stands for. -/
theorem readParts_letter {letter c : Char} (h : escape? letter = some c) (input : List Piece) :
    readParts (.char '\\' :: .char letter :: input) =
      (readParts input).map fun result => (.char c :: result.1, result.2) := by
  have hletter : letter ≠ 'u' := by
    rintro rfl
    have hnone : escape? 'u' = none := by decide
    rw [hnone] at h
    cases h
  cases hrest : readParts input with
  | none => simp [readParts, hletter, h, hrest]
  | some result => simp [readParts, hletter, h, hrest]

theorem readParts_control {c : Char} (h : c.toNat < 0x20) (input : List Piece) :
    readParts (.char '\\' :: .char 'u' :: .char '0' :: .char '0' ::
        .char (Nat.digitChar (c.toNat / 16)) :: .char (Nat.digitChar (c.toNat % 16)) :: input) =
      (readParts input).map fun result => (.unit c.toNat :: result.1, result.2) := by
  cases hrest : readParts input with
  | none => simp [readParts, hexValue?_control h, hrest]
  | some result => simp [readParts, hexValue?_control h, hrest]

theorem readParts_plain {c : Char} (hquote : c ≠ '"') (hbackslash : c ≠ '\\')
    (h : ¬ c.toNat < 0x20) (input : List Piece) :
    readParts (.char c :: input) =
      (readParts input).map fun result => (.char c :: result.1, result.2) := by
  cases hrest : readParts input with
  | none => simp [readParts, hbackslash, h, hrest]
  | some result => simp [readParts, hbackslash, h, hrest]

/-- A control character is no half of a surrogate pair. -/
theorem denoted_control {c : Char} (h : c.toNat < 0x20) (parts : List StringPart) :
    denoted (.unit c.toNat :: parts) = (denoted parts).map (c :: ·) := by
  have hleading : ¬ (0xD800 ≤ c.toNat ∧ c.toNat < 0xDC00) := by omega
  have htrailing : ¬ (0xDC00 ≤ c.toNat ∧ c.toNat < 0xE000) := by omega
  conv =>
    lhs
    unfold denoted
  rw [if_neg hleading, if_neg htrailing, Char.ofNat_toNat]

/-- What is written for a character is read as one part, which denotes the character. -/
theorem exists_part_escaped (c : Char) :
    ∃ part, (∀ input, readParts ((escaped c).map .char ++ input) =
        (readParts input).map fun result => (part :: result.1, result.2)) ∧
      ∀ parts, denoted (part :: parts) = (denoted parts).map (c :: ·) := by
  have hletter : ∀ letter, escape? letter = some c → escaped c = ['\\', letter] →
      ∃ part, (∀ input, readParts ((escaped c).map .char ++ input) =
        (readParts input).map fun result => (part :: result.1, result.2)) ∧
      ∀ parts, denoted (part :: parts) = (denoted parts).map (c :: ·) := by
    intro letter hescape hwritten
    refine ⟨.char c, ?_, fun _ => rfl⟩
    intro input
    rw [hwritten]
    exact readParts_letter hescape input
  -- the cases are those of `escaped`, in its order: letters, control characters, all others
  by_cases hquote : c = '"'
  · exact hletter '"' (by rw [hquote]; rfl) (by rw [hquote]; rfl)
  by_cases hbackslash : c = '\\'
  · exact hletter '\\' (by rw [hbackslash]; rfl) (by rw [hbackslash]; rfl)
  by_cases hnewline : c = '\n'
  · exact hletter 'n' (by rw [hnewline]; rfl) (by rw [hnewline]; rfl)
  by_cases hreturn : c = '\r'
  · exact hletter 'r' (by rw [hreturn]; rfl) (by rw [hreturn]; rfl)
  by_cases htab : c = '\t'
  · exact hletter 't' (by rw [htab]; rfl) (by rw [htab]; rfl)
  by_cases hbackspace : c = '\x08'
  · exact hletter 'b' (by rw [hbackspace]; rfl) (by rw [hbackspace]; rfl)
  by_cases hfeed : c = '\x0c'
  · exact hletter 'f' (by rw [hfeed]; rfl) (by rw [hfeed]; rfl)
  by_cases hcontrol : c.toNat < 0x20
  · refine ⟨.unit c.toNat, ?_, denoted_control hcontrol⟩
    intro input
    simp only [escaped, hquote, hbackslash, hnewline, hreturn, htab, hbackspace, hfeed, hcontrol,
      if_true, if_false, List.map_cons, List.map_nil, List.cons_append, List.nil_append]
    exact readParts_control hcontrol input
  · refine ⟨.char c, ?_, fun _ => rfl⟩
    intro input
    simp only [escaped, hquote, hbackslash, hnewline, hreturn, htab, hbackspace, hfeed, hcontrol,
      if_false, List.map_cons, List.map_nil, List.cons_append, List.nil_append]
    exact readParts_plain hquote hbackslash hcontrol input

theorem exists_parts_escaped (text : List Char) (rest : List Piece) :
    ∃ parts, readParts ((text.flatMap escaped).map .char ++ .char '"' :: rest) =
        some (parts, rest) ∧ denoted parts = some text := by
  induction text with
  | nil => exact ⟨[], rfl, rfl⟩
  | cons c text ih =>
    rcases ih with ⟨parts, hparts, htext⟩
    rcases exists_part_escaped c with ⟨part, hread, hdenoted⟩
    refine ⟨part :: parts, ?_, ?_⟩
    · rw [List.flatMap_cons, List.map_append, List.append_assoc, hread, hparts]
      rfl
    · rw [hdenoted, htext]
      rfl

/-- A quoted text is read back, without its opening quote. -/
theorem readString_quoted (s : String) (rest : List Piece) :
    ∃ body, quoted (some s) = '"' :: body ∧
      readString (body.map .char ++ rest) = some (some s, rest) := by
  rcases exists_parts_escaped s.toList rest with ⟨parts, hparts, htext⟩
  refine ⟨s.toList.flatMap escaped ++ ['"'], rfl, ?_⟩
  have hread : readParts ((s.toList.flatMap escaped ++ ['"']).map .char ++ rest) =
      some (parts, rest) := by
    rw [List.map_append, List.append_assoc]
    exact hparts
  rw [readString, hread]
  simp [htext]

/-! ## Values -/

/-- The start of a number: a sign or a digit, and no other token. -/
theorem exists_written_eq (n : Number) :
    ∃ c body, n.written = c :: body ∧ (c = '-' ∨ c.isDigit = true) := by
  rw [Number.written_eq]
  cases n.negative with
  | true => exact ⟨'-', _, rfl, .inl rfl⟩
  | false =>
    cases hdigits : Nat.toDigits 10 n.integral with
    | nil => exact absurd hdigits Nat.toDigits_ne_nil
    | cons d digits =>
      have hd : d ∈ Nat.toDigits 10 n.integral := by simp [hdigits]
      exact ⟨d, _, rfl, .inr (isDigit_of_mem_toDigits d hd)⟩

theorem not_isBlank_of_digit {c : Char} (h : c = '-' ∨ c.isDigit = true) :
    ¬ IsBlank c ∧ c ≠ ']' := by
  rcases h with rfl | hdigit
  · exact ⟨by decide, by decide⟩
  · constructor
    · rintro (rfl | rfl | rfl | rfl) <;> exact absurd hdigit (by decide)
    · rintro rfl
      exact absurd hdigit (by decide)

/-- No document starts with a blank or looks like the end of an array. -/
theorem exists_render_eq (layout : Layout) (depth : Nat) (json : Json) :
    ∃ c body, render layout depth json = c :: body ∧ ¬ IsBlank c ∧ c ≠ ']' := by
  match json with
  | .null => exact ⟨'n', _, by rw [render], by decide, by decide⟩
  | .bool true => exact ⟨'t', _, by rw [render], by decide, by decide⟩
  | .bool false => exact ⟨'f', _, by rw [render], by decide, by decide⟩
  | .number n =>
    rcases exists_written_eq n with ⟨c, body, hwritten, hc⟩
    exact ⟨c, body, by rw [render, hwritten], not_isBlank_of_digit hc⟩
  | .string text => exact ⟨'"', _, by rw [render, quoted], by decide, by decide⟩
  | .array [] => exact ⟨'[', _, by rw [render], by decide, by decide⟩
  | .array (element :: elements) => exact ⟨'[', _, by rw [render], by decide, by decide⟩
  | .object [] => exact ⟨'{', _, by rw [render], by decide, by decide⟩
  | .object ((key, value) :: members) => exact ⟨'{', _, by rw [render], by decide, by decide⟩

theorem readValue_append {blanks : List Char} (h : ∀ c ∈ blanks, IsBlank c) (fuel : Nat)
    (input : List Piece) : readValue fuel (blanks.map .char ++ input) = readValue fuel input := by
  cases fuel with
  | zero => simp only [readValue]
  | succ fuel => simp only [readValue, skipBlanks_append h]

theorem readElements_append {blanks : List Char} (h : ∀ c ∈ blanks, IsBlank c) (fuel : Nat)
    (input : List Piece) :
    readElements fuel (blanks.map .char ++ input) = readElements fuel input := by
  cases fuel with
  | zero => simp only [readElements]
  | succ fuel => simp only [readElements, readValue_append h]

theorem readMembers_append {blanks : List Char} (h : ∀ c ∈ blanks, IsBlank c) (fuel : Nat)
    (input : List Piece) :
    readMembers fuel (blanks.map .char ++ input) = readMembers fuel input := by
  cases fuel with
  | zero => simp only [readMembers]
  | succ fuel => simp only [readMembers, skipBlanks_append h]

theorem readValue_number {c : Char} (h : c = '-' ∨ c.isDigit = true) (fuel : Nat)
    (input : List Piece) :
    readValue (fuel + 1) (.char c :: input) =
      (readNumber (.char c :: input)).map fun result => (.number result.1, result.2) := by
  have hother : c ≠ '"' ∧ c ≠ '[' ∧ c ≠ '{' ∧ c ≠ 'n' ∧ c ≠ 't' ∧ c ≠ 'f' := by
    rcases h with rfl | hdigit
    · decide
    · refine ⟨?_, ?_, ?_, ?_, ?_, ?_⟩ <;>
        · rintro rfl
          exact absurd hdigit (by decide)
  rcases hother with ⟨hquote, hbracket, hbrace, hn, ht, hf⟩
  rw [readValue, skipBlanks_char (not_isBlank_of_digit h).1]
  cases hnumber : readNumber (.char c :: input) with
  | none => simp [hquote, hbracket, hbrace, hn, ht, hf, hnumber]
  | some result => simp [hquote, hbracket, hbrace, hn, ht, hf, hnumber]

/-- What is written for a document in a layout is read back as the document, whatever follows that
a number could not run into. -/
def Recovered (layout : Layout) (json : Json) : Prop :=
  ∀ depth fuel rest, NumberEnd rest → 2 * (render layout depth json).length ≤ fuel →
    readValue fuel ((render layout depth json).map .char ++ rest) = some (json, rest)

section

variable {layout : Layout} (hlayout : layout.Blank)

theorem recovered_number {n : Number} (h : ∀ c ∈ n.fraction, c.isDigit = true) :
    Recovered layout (.number n) := by
  intro depth fuel rest hrest hfuel
  rcases exists_written_eq n with ⟨c, body, hwritten, hc⟩
  have hread := readNumber_written h hrest
  rw [render] at hfuel ⊢
  rw [hwritten, List.map_cons, List.cons_append] at hread ⊢
  cases fuel with
  | zero => simp [hwritten] at hfuel
  | succ fuel =>
    rw [readValue_number hc, hread]
    rfl

theorem recovered_text (s : String) : Recovered layout (.text s) := by
  intro depth fuel rest _ hfuel
  rcases readString_quoted s rest with ⟨body, hquoted, hread⟩
  rw [text, render, hquoted] at hfuel ⊢
  cases fuel with
  | zero => simp at hfuel
  | succ fuel => simp [readValue, skipBlanks, hread]

theorem recovered_null : Recovered layout .null := by
  intro depth fuel rest _ hfuel
  cases fuel with
  | zero => simp [render] at hfuel
  | succ fuel => simp [render, readValue, skipBlanks, expect]

theorem recovered_bool (b : Bool) : Recovered layout (.bool b) := by
  intro depth fuel rest _ hfuel
  cases fuel with
  | zero => cases b <;> simp [render] at hfuel
  | succ fuel => cases b <;> simp [render, readValue, skipBlanks, expect]

include hlayout

theorem numberEnd_renderElements (depth : Nat) (elements : List Json) (rest : List Piece) :
    NumberEnd ((renderElements layout depth elements).map .char ++ rest) := by
  have hend : NumberEnd (.char ']' :: rest) := by
    exact ⟨by decide, by decide, by decide, by decide⟩
  cases elements with
  | nil =>
    rw [renderElements, List.map_append, List.append_assoc]
    exact numberEnd_append (hlayout.lineBreak depth) hend
  | cons element elements =>
    rw [renderElements]
    exact ⟨by decide, by decide, by decide, by decide⟩

theorem numberEnd_renderMembers (depth : Nat) (members : List (Option String × Json))
    (rest : List Piece) :
    NumberEnd ((renderMembers layout depth members).map .char ++ rest) := by
  have hend : NumberEnd (.char '}' :: rest) := by
    exact ⟨by decide, by decide, by decide, by decide⟩
  cases members with
  | nil =>
    rw [renderMembers, List.map_append, List.append_assoc]
    exact numberEnd_append (hlayout.lineBreak depth) hend
  | cons member members =>
    rw [renderMembers]
    exact ⟨by decide, by decide, by decide, by decide⟩

/-- The elements of an array from the first one on, up to the closing bracket. -/
theorem readElements_render {element : Json} {elements : List Json}
    (helement : Recovered layout element) (helements : ∀ e ∈ elements, Recovered layout e)
    (depth fuel : Nat) (rest : List Piece)
    (hfuel : 2 * ((render layout (depth + 1) element).length +
      (renderElements layout depth elements).length) ≤ fuel) :
    readElements fuel ((render layout (depth + 1) element).map .char ++
        ((renderElements layout depth elements).map .char ++ rest)) =
      some (element :: elements, rest) := by
  -- along the elements after this one; each takes one step and what it needs itself
  induction elements generalizing element fuel with
  | nil =>
    cases fuel with
    | zero => simp [renderElements] at hfuel
    | succ fuel =>
      rw [renderElements, List.length_append, List.length_singleton] at hfuel
      have hread := helement (depth + 1) fuel
        ((renderElements layout depth []).map .char ++ rest)
        (numberEnd_renderElements hlayout depth [] rest) (by omega)
      rw [readElements, hread, renderElements, List.map_append, List.append_assoc]
      simp [skipBlanks_append (hlayout.lineBreak depth), skipBlanks]
  | cons next elements ih =>
    cases fuel with
    | zero => simp [renderElements] at hfuel
    | succ fuel =>
      rw [renderElements] at hfuel
      simp only [List.length_cons, List.length_append] at hfuel
      have hread := helement (depth + 1) fuel
        ((renderElements layout depth (next :: elements)).map .char ++ rest)
        (numberEnd_renderElements hlayout depth (next :: elements) rest) (by omega)
      have hnext := ih (helements next List.mem_cons_self)
        (fun e he => helements e (List.mem_cons_of_mem next he)) fuel (by omega)
      rw [readElements, hread, renderElements]
      simp [skipBlanks, readElements_append (hlayout.lineBreak (depth + 1)), hnext]

/-- What is written for a member, without the blanks in front of it. -/
def memberText (layout : Layout) (depth : Nat) (key : String) (value : Json) : List Char :=
  quoted (some key) ++ (':' :: (layout.afterColon ++ render layout (depth + 1) value))

/-- What is read of an object after one of its members. -/
def readAfterMember (fuel : Nat) (member : Option String × Json) :
    List Piece → Option (List (Option String × Json) × List Piece)
  | .char ',' :: rest => do
    let (members, rest) ← readMembers fuel rest
    return (member :: members, rest)
  | .char '}' :: rest => some ([member], rest)
  | _ => none

/-- One member, whatever follows that ends a number. -/
theorem readMembers_member (key : String) {value : Json} (hvalue : Recovered layout value)
    (depth fuel : Nat) {rest : List Piece} (hend : NumberEnd rest)
    (hfuel : 2 * (memberText layout depth key value).length ≤ fuel + 1) :
    readMembers (fuel + 1) ((memberText layout depth key value).map .char ++ rest) =
      readAfterMember fuel (some key, value) (skipBlanks rest) := by
  simp only [memberText, List.length_append, List.length_cons] at hfuel
  have hread := hvalue (depth + 1) fuel rest hend (by omega)
  rcases readString_quoted key (.char ':' :: (layout.afterColon.map .char ++
    ((render layout (depth + 1) value).map .char ++ rest))) with ⟨body, hquoted, hkey⟩
  simp [memberText, hquoted, readMembers, skipBlanks, hkey, readValue_append hlayout.afterColon,
    hread]
  rfl

/-- The members of an object from the first one on, up to the closing brace. -/
theorem readMembers_render (key : String) {value : Json} {members : List (Option String × Json)}
    (hvalue : Recovered layout value) (hkeys : ∀ member ∈ members, member.1.isSome = true)
    (hvalues : ∀ member ∈ members, Recovered layout member.2) (depth fuel : Nat) (rest : List Piece)
    (hfuel : 2 * ((memberText layout depth key value).length +
      (renderMembers layout depth members).length) ≤ fuel) :
    readMembers fuel ((memberText layout depth key value).map .char ++
        ((renderMembers layout depth members).map .char ++ rest)) =
      some ((some key, value) :: members, rest) := by
  induction members generalizing key value fuel with
  | nil =>
    cases fuel with
    | zero => simp [renderMembers] at hfuel
    | succ fuel =>
      rw [readMembers_member hlayout key hvalue depth fuel
        (numberEnd_renderMembers hlayout depth [] rest) (by omega)]
      rw [renderMembers, List.map_append, List.append_assoc,
        skipBlanks_append (hlayout.lineBreak depth)]
      rfl
  | cons next members ih =>
    -- a key that is no text is never written
    rcases next with ⟨_ | nextKey, nextValue⟩
    · cases hkeys (none, nextValue) List.mem_cons_self
    cases fuel with
    | zero => simp [renderMembers] at hfuel
    | succ fuel =>
      rw [readMembers_member hlayout key hvalue depth fuel
        (numberEnd_renderMembers hlayout depth ((some nextKey, nextValue) :: members) rest)
        (by omega)]
      have hsplit : renderMembers layout depth ((some nextKey, nextValue) :: members) =
          ',' :: (layout.lineBreak (depth + 1) ++
            (memberText layout depth nextKey nextValue ++ renderMembers layout depth members)) := by
        simp [renderMembers, memberText]
      rw [hsplit] at hfuel ⊢
      simp only [List.length_append, List.length_cons] at hfuel
      have hnextValue : Recovered layout nextValue :=
        hvalues (some nextKey, nextValue) List.mem_cons_self
      have hnext := ih nextKey hnextValue
        (fun m hm => hkeys m (List.mem_cons_of_mem _ hm))
        (fun m hm => hvalues m (List.mem_cons_of_mem _ hm)) fuel (by omega)
      rw [List.map_cons, List.cons_append, skipBlanks_char (by decide), readAfterMember,
        List.map_append, List.append_assoc, readMembers_append (hlayout.lineBreak (depth + 1)),
        List.map_append, List.append_assoc, hnext]
      rfl

theorem recovered_array {elements : List Json} (h : ∀ e ∈ elements, Recovered layout e) :
    Recovered layout (.array elements) := by
  intro depth fuel rest _ hfuel
  cases elements with
  | nil =>
    cases fuel with
    | zero => simp [render] at hfuel
    | succ fuel => simp [render, readValue, skipBlanks]
  | cons element elements =>
    cases fuel with
    | zero => simp [render] at hfuel
    | succ fuel =>
      rw [render] at hfuel
      simp only [List.length_cons, List.length_append] at hfuel
      have hread := readElements_render hlayout (h element List.mem_cons_self)
        (fun e he => h e (List.mem_cons_of_mem element he)) depth fuel rest (by omega)
      -- the first element is not mistaken for the end of an empty array
      rcases exists_render_eq layout (depth + 1) element with ⟨c, body, hbody, hblank, hclose⟩
      have hskip := skipBlanks_char hblank
      rw [hbody, List.map_cons, List.cons_append] at hread
      rw [render, List.map_cons, List.cons_append, readValue, skipBlanks_char (by decide)]
      simp [skipBlanks_append (hlayout.lineBreak (depth + 1)), hbody, hskip, hclose, hread]

theorem recovered_object {members : List (Option String × Json)}
    (hkeys : ∀ member ∈ members, member.1.isSome = true)
    (hvalues : ∀ member ∈ members, Recovered layout member.2) :
    Recovered layout (.object members) := by
  intro depth fuel rest _ hfuel
  cases members with
  | nil =>
    cases fuel with
    | zero => simp [render] at hfuel
    | succ fuel => simp [render, readValue, skipBlanks]
  | cons member members =>
    rcases member with ⟨_ | key, value⟩
    · cases hkeys (none, value) List.mem_cons_self
    cases fuel with
    | zero => simp [render] at hfuel
    | succ fuel =>
      rw [render] at hfuel
      simp only [List.length_cons, List.length_append] at hfuel
      have hread := readMembers_render hlayout key
        (hvalues (some key, value) List.mem_cons_self)
        (fun m hm => hkeys m (List.mem_cons_of_mem _ hm))
        (fun m hm => hvalues m (List.mem_cons_of_mem _ hm)) depth fuel rest
        (by simp only [memberText, List.length_append, List.length_cons]; omega)
      rcases readString_quoted key rest with ⟨body, hquoted, -⟩
      have hskip := skipBlanks_char (c := '"') (by decide)
      simp only [memberText, hquoted, List.map_append, List.map_cons, List.append_assoc,
        List.cons_append] at hread
      rw [render, List.map_cons, List.cons_append, readValue, skipBlanks_char (by decide)]
      simp [skipBlanks_append (hlayout.lineBreak (depth + 1)), hquoted, hskip, hread]

theorem Writable.recovered {json : Json} (h : json.Writable) : Recovered layout json := by
  induction h with
  | null => exact recovered_null
  | bool b => exact recovered_bool b
  | number digits => exact recovered_number digits
  | text s => exact recovered_text s
  | array _ ih => exact recovered_array hlayout ih
  | object keys _ ih => exact recovered_object hlayout keys ih

/-- A document is read back from its written form in any layout. -/
theorem ofText?_render {json : Json} (h : json.Writable) :
    ofText? (String.ofList (json.render layout 0)) = some json := by
  have hread := h.recovered hlayout 0 (2 * (json.render layout 0).length + 2) [] trivial (by omega)
  rw [List.append_nil] at hread
  simp [ofText?, ofPieces?, Piece.ofText, hread, skipBlanks]

end

end RiskGate.Json

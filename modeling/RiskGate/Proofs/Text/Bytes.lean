import Mathlib
import RiskGate.Text.Utf8

/-! # The bytes of a text

Texts are compared character by character. That is the order of their bytes: of two encodings the
one of the lesser character has the lesser byte at the first place where they differ, and neither is
the beginning of the other.

* `utf8`, `utf8_append` and `utf8_eq_flatMap`: the bytes of a text;
* `Piece.ofBytes_toUTF8`: the bytes of a text are read as the text;
* `append_ne_append`: texts with different endings are different;
* `firstDiffersBelow_utf8EncodeChar`: the order of two characters shows in their bytes;
* `utf8_lt_utf8_iff`: the order of texts is the order of their bytes.
-/

namespace RiskGate

/-- The bytes of a text. Those of a literal are evaluated with less effort than its characters. -/
def utf8 (text : String) : List UInt8 := text.toByteArray.data.toList

theorem utf8_append (a b : String) : utf8 (a ++ b) = utf8 a ++ utf8 b := by
  simp only [utf8, String.toByteArray_append, ByteArray.data_append, Array.toList_append]

theorem utf8_eq_flatMap (text : String) :
    utf8 text = text.toList.flatMap String.utf8EncodeChar := by
  rw [utf8, ← String.utf8Encode_toList, List.utf8Encode, List.data_toByteArray]

/-- Texts with different endings are different, where neither ending ends with the other. -/
theorem append_ne_append {ending ending' : String} (h : ¬ utf8 ending <:+ utf8 ending')
    (h' : ¬ utf8 ending' <:+ utf8 ending) (before before' : String) :
    before ++ ending ≠ before' ++ ending' := by
  intro heq
  have hbytes := congrArg utf8 heq
  rw [utf8_append, utf8_append] at hbytes
  rcases List.suffix_or_suffix_of_suffix ⟨_, hbytes⟩ ⟨_, rfl⟩ with hsuffix | hsuffix
  · exact h hsuffix
  · exact h' hsuffix

/-! ## Bytes read as a text -/

namespace Piece

/-- Characters are read from where they begin, whatever bytes stand in front of them. -/
theorem ofBytesFrom_append (before : ByteArray) (cs : List Char) :
    ofBytesFrom (before ++ cs.utf8Encode) before.size = cs.map .char := by
  induction cs generalizing before with
  | nil =>
    have hend : ¬ before.size < (before ++ [].utf8Encode).size := by simp
    rw [ofBytesFrom, dif_neg hend, List.map_nil]
  | cons c cs ih =>
    have hsize : [c].utf8Encode.size = c.utf8Size := by
      rw [List.utf8Encode_singleton, List.size_toByteArray, String.length_utf8EncodeChar]
    have hbytes : before ++ (c :: cs).utf8Encode = before ++ [c].utf8Encode ++ cs.utf8Encode := by
      rw [List.utf8Encode_cons, ByteArray.append_assoc]
    have hlt : before.size < (before ++ (c :: cs).utf8Encode).size := by
      have hpos := c.utf8Size_pos
      rw [hbytes, ByteArray.size_append, ByteArray.size_append, hsize]
      omega
    have hchar : (before ++ (c :: cs).utf8Encode).utf8DecodeChar? before.size = some c := by
      rw [ByteArray.utf8DecodeChar?_eq_utf8DecodeChar?_extract,
        ByteArray.extract_append_eq_right rfl ByteArray.size_append,
        List.utf8DecodeChar?_utf8Encode_cons]
    -- the character belongs to what stands in front of the others
    have hrest := ih (before ++ [c].utf8Encode)
    rw [← hbytes, ByteArray.size_append, hsize] at hrest
    rw [ofBytesFrom, dif_pos hlt]
    simp only [hchar, hrest, List.map_cons]

/-- The bytes of a text are read as the text. -/
theorem ofBytes_toUTF8 (text : String) : ofBytes text.toUTF8 = ofText text := by
  have hread := ofBytesFrom_append ByteArray.empty text.toList
  rw [String.utf8Encode_toList, ByteArray.empty_append] at hread
  exact hread

end Piece

/-! ## The first difference -/

/-- The lists differ, and where they first do, the first list has the lesser byte. Unlike in a
dictionary, the beginning of a list does not come before it. -/
def FirstDiffersBelow : List UInt8 → List UInt8 → Prop
  | x :: xs, y :: ys => x < y ∨ x = y ∧ FirstDiffersBelow xs ys
  | _, _ => False

/-- What follows is of no account. -/
theorem FirstDiffersBelow.append_lt {xs ys : List UInt8} (h : FirstDiffersBelow xs ys)
    (s t : List UInt8) : xs ++ s < ys ++ t := by
  induction xs, ys using FirstDiffersBelow.induct with
  | case1 x xs y ys ih =>
    rw [List.cons_append, List.cons_append, List.cons_lt_cons_iff]
    exact h.imp_right fun hsame => ⟨hsame.1, ih hsame.2⟩
  | case2 => exact absurd h (by simp_all [FirstDiffersBelow])

theorem toNat_val_le (c : Char) : c.val.toNat ≤ 0x10FFFF := by
  rcases c.valid with h | ⟨-, h⟩
  · omega
  · omega

/-- The number of the first byte says how many bytes there are, and the digits of the number of a
character follow in their order. -/
theorem firstDiffersBelow_utf8EncodeChar {c d : Char} (h : c < d) :
    FirstDiffersBelow (String.utf8EncodeChar c) (String.utf8EncodeChar d) := by
  have hlt : c.val.toNat < d.val.toNat := h
  have hle := toNat_val_le c
  have hle' := toNat_val_le d
  -- digits are read off one by one, so that each is compared after those in front of it
  have htwice : ∀ n : Nat, n / 4096 = n / 64 / 64 := fun n => (Nat.div_div_eq_div_mul n 64 64).symm
  have hthrice : ∀ n : Nat, n / 262144 = n / 64 / 64 / 64 := fun n => by
    rw [Nat.div_div_eq_div_mul, Nat.div_div_eq_div_mul]
  simp only [String.utf8EncodeChar, htwice, hthrice]
  split_ifs <;>
    simp only [FirstDiffersBelow, UInt8.lt_iff_toNat_lt, ← UInt8.toNat_inj, UInt8.toNat_ofNat'] <;>
    omega

/-! ## The order of texts -/

theorem flatMap_utf8EncodeChar_lt {cs ds : List Char} (h : cs < ds) :
    cs.flatMap String.utf8EncodeChar < ds.flatMap String.utf8EncodeChar := by
  induction cs generalizing ds with
  | nil =>
    -- the other text has a character, and with it a byte
    cases ds with
    | nil => exact absurd h (List.lt_irrefl _)
    | cons d ds =>
      rcases List.exists_cons_of_ne_nil (String.utf8EncodeChar_ne_nil (c := d)) with ⟨byte, _, hd⟩
      rw [List.flatMap_cons, hd]
      exact List.nil_lt_cons byte _
  | cons c cs ih =>
    cases ds with
    | nil => exact absurd h (List.not_lt_nil _)
    | cons d ds =>
      rw [List.flatMap_cons, List.flatMap_cons]
      rcases List.cons_lt_cons_iff.mp h with hlt | ⟨rfl, hlt⟩
      · exact (firstDiffersBelow_utf8EncodeChar hlt).append_lt _ _
      · exact List.append_left_lt (ih hlt)

theorem utf8_lt_utf8 {a b : String} (h : a < b) : utf8 a < utf8 b := by
  rw [utf8_eq_flatMap, utf8_eq_flatMap]
  exact flatMap_utf8EncodeChar_lt (String.lt_iff_toList_lt.mp h)

/-- The order of texts is the order of their bytes. -/
theorem utf8_lt_utf8_iff {a b : String} : utf8 a < utf8 b ↔ a < b := by
  refine ⟨?_, utf8_lt_utf8⟩
  intro h
  by_contra hnot
  rcases eq_or_gt_of_not_lt hnot with rfl | hgt
  · exact List.lt_irrefl _ h
  · exact List.lt_asymm h (utf8_lt_utf8 hgt)

end RiskGate

import Mathlib
import RiskGate.Binary64.Basic

/-! # Rounding to places

A rounded quotient is the place of a double. Rounding keeps the order of quotients and does not move
the values of doubles.

* `roundHalfEven_le_iff`: when a quotient is rounded to at most `k`, without division;
* `exists_block` and `units_block`, a place as a block and a position in it, with its value;
* `roundMagnitude_mono` and `roundMagnitude_units`: rounding is monotone, and exact on doubles;
* `units_le_units_iff`: places are in the order of their values.
-/

namespace RiskGate.Binary64

/-! ## Rounding to whole numbers -/

/-- A quotient is rounded to at most `k` if it is below `k + 1 / 2`, or there with `k` even. -/
theorem roundHalfEven_le_iff {num den k : Nat} (hden : 0 < den) :
    roundHalfEven num den ≤ k ↔
      2 * num < (2 * k + 1) * den ∨ 2 * num = (2 * k + 1) * den ∧ k % 2 = 0 := by
  have hnum : den * (num / den) + num % den = num := Nat.div_add_mod num den
  have hrest : num % den < den := Nat.mod_lt num hden
  simp only [roundHalfEven]
  generalize num / den = quotient at *
  generalize num % den = rest at *
  have hexpand : (2 * k + 1) * den = 2 * (den * k) + den := by ring
  rw [hexpand]
  rcases Nat.lt_trichotomy k quotient with hk | rfl | hk
  · have hstep : den * (k + 1) ≤ den * quotient := Nat.mul_le_mul_left den hk
    rw [Nat.mul_succ] at hstep
    split_ifs <;> omega
  · split_ifs <;> omega
  · have hstep : den * (quotient + 1) ≤ den * k := Nat.mul_le_mul_left den hk
    rw [Nat.mul_succ] at hstep
    split_ifs <;> omega

theorem roundHalfEven_mono {a b c d : Nat} (hb : 0 < b) (hd : 0 < d) (h : a * d ≤ c * b) :
    roundHalfEven a b ≤ roundHalfEven c d := by
  generalize hk : roundHalfEven c d = k
  rw [roundHalfEven_le_iff hb]
  rcases (roundHalfEven_le_iff hd).mp hk.le with hlt | ⟨heq, heven⟩
  · left
    apply Nat.lt_of_mul_lt_mul_right (a := d)
    calc 2 * a * d = 2 * (a * d) := by ring
      _ ≤ 2 * (c * b) := Nat.mul_le_mul_left 2 h
      _ = 2 * c * b := by ring
      _ < (2 * k + 1) * d * b := Nat.mul_lt_mul_of_pos_right hlt hb
      _ = (2 * k + 1) * b * d := by ring
  · have hle : 2 * a ≤ (2 * k + 1) * b := by
      apply Nat.le_of_mul_le_mul_right _ hd
      calc 2 * a * d = 2 * (a * d) := by ring
        _ ≤ 2 * (c * b) := Nat.mul_le_mul_left 2 h
        _ = 2 * c * b := by ring
        _ = (2 * k + 1) * b * d := by rw [heq]; ring
    rcases Nat.lt_or_eq_of_le hle with hlt | heq'
    · exact Or.inl hlt
    · exact Or.inr ⟨heq', heven⟩

/-- A whole quotient stays. -/
theorem roundHalfEven_mul {k den : Nat} (hden : 0 < den) : roundHalfEven (k * den) den = k := by
  simp [roundHalfEven, Nat.mul_div_cancel k hden, hden]

/-- Rounding at most doubles a quotient. -/
theorem roundHalfEven_mul_le (num den : Nat) :
    roundHalfEven num den * den ≤ 2 * num := by
  have hnum : den * (num / den) + num % den = num := Nat.div_add_mod num den
  have hhalf : roundHalfEven num den ≤ num / den ∨
      den ≤ 2 * (num % den) ∧ roundHalfEven num den ≤ num / den + 1 := by
    simp only [roundHalfEven]
    split_ifs <;> omega
  rcases hhalf with hle | ⟨hrest, hle⟩
  · have hmul := Nat.mul_le_mul_left den hle
    rw [Nat.mul_comm]
    omega
  · have hmul := Nat.mul_le_mul_left den hle
    rw [Nat.mul_succ] at hmul
    rw [Nat.mul_comm]
    omega

/-! ## Blocks of places -/

/-- The value of a position in a block of `2 ^ 52` places. The last position of a block is the first
of the next one. -/
theorem units_block {exponent position : Nat} (hlt : position ≤ 2 ^ 53)
    (hnormal : exponent = 0 ∨ 2 ^ 52 ≤ position) :
    units (exponent * 2 ^ 52 + position) = position * 2 ^ exponent := by
  simp only [units, Nat.pow_eq]
  rcases Nat.lt_or_eq_of_le hlt with hlt | rfl
  · have hexponent : (exponent * 2 ^ 52 + position) / 2 ^ 52 - 1 = exponent := by omega
    rw [hexponent, Nat.add_sub_cancel_left]
  · have hexponent : (exponent * 2 ^ 52 + 2 ^ 53) / 2 ^ 52 - 1 = exponent + 1 := by omega
    have hposition : exponent * 2 ^ 52 + 2 ^ 53 - (exponent + 1) * 2 ^ 52 = 2 ^ 52 := by omega
    rw [hexponent, hposition, Nat.pow_succ]
    ring

theorem exists_block (magnitude : Nat) :
    ∃ exponent position, magnitude = exponent * 2 ^ 52 + position ∧ position < 2 ^ 53 ∧
      (exponent = 0 ∨ 2 ^ 52 ≤ position) := by
  refine ⟨magnitude / 2 ^ 52 - 1, magnitude - (magnitude / 2 ^ 52 - 1) * 2 ^ 52, ?_, ?_, ?_⟩
  · omega
  · omega
  · omega

/-- The block that a quotient is rounded in. -/
def block (num den : Nat) : Nat := (num / den).log2 - 52

/-- The position in its block that a quotient is rounded to. -/
def position (num den : Nat) : Nat := roundHalfEven num (den * 2 ^ block num den)

theorem roundMagnitude_eq (num den : Nat) :
    roundMagnitude num den =
      min (block num den * 2 ^ 52 + position num den) infinityMagnitude := by
  simp only [roundMagnitude, position, block, Nat.pow_eq]

theorem num_lt {num den : Nat} (hden : 0 < den) :
    num < 2 ^ 53 * (den * 2 ^ block num den) := by
  have hlog : num / den < 2 ^ (block num den + 53) := by
    apply Nat.lt_log2_self.trans_le
    apply Nat.pow_le_pow_right (by decide)
    unfold block
    omega
  rw [Nat.div_lt_iff_lt_mul hden] at hlog
  calc num < 2 ^ (block num den + 53) * den := hlog
    _ = 2 ^ 53 * (den * 2 ^ block num den) := by rw [Nat.pow_add]; ring

theorem le_num {num den : Nat} (hden : 0 < den) (hblock : block num den ≠ 0) :
    2 ^ 52 * (den * 2 ^ block num den) ≤ num := by
  have hquotient : num / den ≠ 0 := by
    intro hzero
    simp [block, hzero] at hblock
  have hlog : 2 ^ (block num den + 52) ≤ num / den := by
    have hexponent : block num den + 52 = (num / den).log2 := by
      unfold block at hblock ⊢
      omega
    rw [hexponent]
    exact Nat.log2_self_le hquotient
  calc 2 ^ 52 * (den * 2 ^ block num den) = 2 ^ (block num den + 52) * den := by
        rw [Nat.pow_add]; ring
    _ ≤ num := (Nat.le_div_iff_mul_le hden).mp hlog

theorem position_le {num den : Nat} (hden : 0 < den) : position num den ≤ 2 ^ 53 := by
  have hpos : 0 < den * 2 ^ block num den := Nat.mul_pos hden (Nat.two_pow_pos _)
  calc position num den
      ≤ roundHalfEven (2 ^ 53 * (den * 2 ^ block num den)) (den * 2 ^ block num den) :=
        roundHalfEven_mono hpos hpos (Nat.mul_le_mul_right _ (num_lt hden).le)
    _ = 2 ^ 53 := roundHalfEven_mul hpos

theorem le_position {num den : Nat} (hden : 0 < den) (hblock : block num den ≠ 0) :
    2 ^ 52 ≤ position num den := by
  have hpos : 0 < den * 2 ^ block num den := Nat.mul_pos hden (Nat.two_pow_pos _)
  calc 2 ^ 52
      = roundHalfEven (2 ^ 52 * (den * 2 ^ block num den)) (den * 2 ^ block num den) :=
        (roundHalfEven_mul hpos).symm
    _ ≤ position num den :=
        roundHalfEven_mono hpos hpos (Nat.mul_le_mul_right _ (le_num hden hblock))

/-! ## Rounding to places -/

theorem block_mono {a b c d : Nat} (hb : 0 < b) (hd : 0 < d) (h : a * d ≤ c * b) :
    block a b ≤ block c d := by
  have hquotient : a / b ≤ c / d := by
    rw [Nat.le_div_iff_mul_le hd]
    apply Nat.le_of_mul_le_mul_right _ hb
    calc a / b * d * b = a / b * b * d := by ring
      _ ≤ a * d := Nat.mul_le_mul_right d (Nat.div_mul_le_self a b)
      _ ≤ c * b := h
  unfold block
  rw [Nat.log2_eq_log_two, Nat.log2_eq_log_two]
  exact Nat.sub_le_sub_right (Nat.log_mono_right hquotient) 52

/-- Rounding keeps the order of quotients. -/
theorem roundMagnitude_mono {a b c d : Nat} (hb : 0 < b) (hd : 0 < d) (h : a * d ≤ c * b) :
    roundMagnitude a b ≤ roundMagnitude c d := by
  rw [roundMagnitude_eq, roundMagnitude_eq]
  apply min_le_min_right
  rcases Nat.lt_or_eq_of_le (block_mono hb hd h) with hlt | heq
  · -- the lower block ends where the next one begins
    have hupper : position a b ≤ 2 ^ 53 := position_le hb
    have hlower : 2 ^ 52 ≤ position c d := le_position hd (Nat.ne_zero_of_lt hlt)
    have hblocks : (block a b + 1) * 2 ^ 52 ≤ block c d * 2 ^ 52 := Nat.mul_le_mul_right _ hlt
    omega
  · rw [heq]
    apply Nat.add_le_add_left
    unfold position
    rw [heq]
    apply roundHalfEven_mono (Nat.mul_pos hb (Nat.two_pow_pos _))
      (Nat.mul_pos hd (Nat.two_pow_pos _))
    calc a * (d * 2 ^ block c d) = a * d * 2 ^ block c d := by ring
      _ ≤ c * b * 2 ^ block c d := Nat.mul_le_mul_right _ h
      _ = c * (b * 2 ^ block c d) := by ring

/-- The value of a double is rounded to the double. -/
theorem roundMagnitude_units {magnitude den : Nat} (hmagnitude : magnitude ≤ infinityMagnitude)
    (hden : 0 < den) : roundMagnitude (units magnitude * den) den = magnitude := by
  obtain ⟨exponent, place, rfl, hlt, hnormal⟩ := exists_block magnitude
  rw [units_block hlt.le hnormal, roundMagnitude_eq]
  have hblock : block (place * 2 ^ exponent * den) den = exponent := by
    rw [block, Nat.mul_div_cancel _ hden]
    rcases hnormal with rfl | hle
    · rw [Nat.pow_zero, Nat.mul_one, Nat.sub_eq_zero_iff_le]
      by_cases hzero : place = 0
      · simp [hzero]
      · have := (Nat.log2_lt hzero).mpr hlt
        omega
    · have hne : place * 2 ^ exponent ≠ 0 := by positivity
      have hlog : (place * 2 ^ exponent).log2 = 52 + exponent := by
        rw [Nat.log2_eq_iff hne]
        constructor
        · rw [Nat.pow_add]
          exact Nat.mul_le_mul_right _ hle
        · rw [show 52 + exponent + 1 = 53 + exponent by omega, Nat.pow_add]
          exact Nat.mul_lt_mul_of_pos_right hlt (Nat.two_pow_pos _)
      omega
  have hposition : position (place * 2 ^ exponent * den) den = place := by
    rw [position, hblock, Nat.mul_assoc, Nat.mul_comm (2 ^ exponent) den]
    exact roundHalfEven_mul (Nat.mul_pos hden (Nat.two_pow_pos _))
  rw [hblock, hposition]
  exact Nat.min_eq_left hmagnitude

theorem units_le_units_iff {m n : Nat} (hm : m ≤ infinityMagnitude) (hn : n ≤ infinityMagnitude) :
    units m ≤ units n ↔ m ≤ n := by
  have hplaces : ∀ {m n : Nat}, m ≤ infinityMagnitude → n ≤ infinityMagnitude →
      units m ≤ units n → m ≤ n := by
    intro m n hm hn h
    have hround := roundMagnitude_mono (a := units m * 1) (c := units n * 1) Nat.one_pos Nat.one_pos
      (by simpa using h)
    rwa [roundMagnitude_units hm Nat.one_pos, roundMagnitude_units hn Nat.one_pos] at hround
  constructor
  · exact hplaces hm hn
  · intro h
    by_contra hlt
    -- the other order of the values would make the places equal
    have heq := Nat.le_antisymm h (hplaces hn hm (by omega))
    rw [heq] at hlt
    exact hlt (Nat.le_refl _)

/-- A double is at most twice what it is rounded from. -/
theorem units_roundMagnitude_le {num den : Nat} (hden : 0 < den)
    (hfinite : roundMagnitude num den < infinityMagnitude) :
    units (roundMagnitude num den) * den ≤ 2 * num := by
  have hplace : roundMagnitude num den = block num den * 2 ^ 52 + position num den := by
    rw [roundMagnitude_eq] at hfinite ⊢
    omega
  have hnormal : block num den = 0 ∨ 2 ^ 52 ≤ position num den :=
    or_iff_not_imp_left.mpr (le_position hden)
  rw [hplace, units_block (position_le hden) hnormal]
  calc position num den * 2 ^ block num den * den
      = position num den * (den * 2 ^ block num den) := by ring
    _ ≤ 2 * num := roundHalfEven_mul_le num _

end RiskGate.Binary64

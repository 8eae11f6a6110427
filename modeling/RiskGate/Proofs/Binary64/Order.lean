import RiskGate.Binary64.Arithmetic
import RiskGate.Binary64.Decimal
import RiskGate.Proofs.Binary64.Rounding

/-! # The order of doubles

* `place` and `value`, a double as a signed place and as an exact number of units;
* `le_iff` and `lt_iff`: comparing doubles is comparing places;
* `value_le_value_iff`: places are in the order of the exact values;
* `roundPlace`, rounding of signed quotients, which is monotone and keeps doubles as they are;
* `clamp_mem` and `clamp_mono`: clamping bounds a number and keeps the order.
-/

namespace RiskGate.Binary64

/-- The place of a number, counted down from zero for negative numbers. -/
def place : Binary64 → Int
  | .nan => 0
  | .number s m _ => orderKey s m

/-- The exact value of a number in units. -/
def value : Binary64 → Int
  | .nan => 0
  | .number s m _ => signedUnits s m

/-- How many units make one. -/
def unitsOfOne : Nat := Nat.pow 2 1074

theorem unitsOfOne_pos : 0 < unitsOfOne := by decide +kernel

/-! ## Comparisons -/

theorem le_iff {x y : Binary64} : x ≤ y ↔ x ≠ .nan ∧ y ≠ .nan ∧ x.place ≤ y.place := by
  cases x with
  | nan => exact ⟨False.elim, fun h => h.1 rfl⟩
  | number s m hm =>
    cases y with
    | nan => exact ⟨False.elim, fun h => h.2.1 rfl⟩
    | number t n hn => exact ⟨fun h => ⟨by simp, by simp, h⟩, fun h => h.2.2⟩

theorem lt_iff {x y : Binary64} : x < y ↔ x ≠ .nan ∧ y ≠ .nan ∧ x.place < y.place := by
  cases x with
  | nan => exact ⟨False.elim, fun h => h.1 rfl⟩
  | number s m hm =>
    cases y with
    | nan => exact ⟨False.elim, fun h => h.2.1 rfl⟩
    | number t n hn => exact ⟨fun h => ⟨by simp, by simp, h⟩, fun h => h.2.2⟩

theorem le_refl {x : Binary64} (hx : x ≠ .nan) : x ≤ x := le_iff.mpr ⟨hx, hx, Int.le_refl _⟩

theorem le_trans {x y z : Binary64} (hxy : x ≤ y) (hyz : y ≤ z) : x ≤ z := by
  rw [le_iff] at *
  exact ⟨hxy.1, hyz.2.1, hxy.2.2.trans hyz.2.2⟩

theorem lt_of_le_of_lt {x y z : Binary64} (hxy : x ≤ y) (hyz : y < z) : x < z := by
  rw [le_iff] at hxy
  rw [lt_iff] at *
  exact ⟨hxy.1, hyz.2.1, hxy.2.2.trans_lt hyz.2.2⟩

theorem lt_of_lt_of_le {x y z : Binary64} (hxy : x < y) (hyz : y ≤ z) : x < z := by
  rw [le_iff] at hyz
  rw [lt_iff] at *
  exact ⟨hxy.1, hyz.2.1, hxy.2.2.trans_le hyz.2.2⟩

theorem le_of_lt {x y : Binary64} (h : x < y) : x ≤ y := by
  rw [lt_iff] at h
  exact le_iff.mpr ⟨h.1, h.2.1, h.2.2.le⟩

/-- Numbers are comparable. -/
theorem not_lt {x y : Binary64} (hx : x ≠ .nan) (hy : y ≠ .nan) : ¬ x < y ↔ y ≤ x := by
  rw [le_iff, lt_iff]
  simp [hx, hy]

theorem not_le {x y : Binary64} (hx : x ≠ .nan) (hy : y ≠ .nan) : ¬ x ≤ y ↔ y < x := by
  rw [le_iff, lt_iff]
  simp [hx, hy]

theorem natAbs_place_le (x : Binary64) : x.place.natAbs ≤ infinityMagnitude := by
  cases x with
  | nan => exact Nat.zero_le _
  | number s m hm => cases s <;> simpa [place, orderKey] using hm

theorem isFinite_iff {x : Binary64} :
    x.isFinite = true ↔ x ≠ .nan ∧ x.place.natAbs < infinityMagnitude := by
  cases x with
  | nan => simp [isFinite]
  | number s m hm => cases s <;> simp [isFinite, place, orderKey]

theorem natAbs_place_of_infinite {x : Binary64} (hx : x ≠ .nan) (hinfinite : x.isFinite = false) :
    x.place.natAbs = infinityMagnitude := by
  have hle := natAbs_place_le x
  have hlt : ¬ x.place.natAbs < infinityMagnitude := by
    intro hlt
    rw [isFinite_iff.mpr ⟨hx, hlt⟩] at hinfinite
    cases hinfinite
  omega

theorem ne_nan_of_isFinite {x : Binary64} (h : x.isFinite = true) : x ≠ .nan :=
  (isFinite_iff.mp h).1

/-- What lies between finite numbers is finite. -/
theorem isFinite_of_le_of_le {x y z : Binary64} (hx : x.isFinite = true) (hz : z.isFinite = true)
    (hxy : x ≤ y) (hyz : y ≤ z) : y.isFinite = true := by
  rw [isFinite_iff] at *
  rw [le_iff] at *
  exact ⟨hyz.1, by omega⟩

/-! ## Values -/

theorem units_zero : units 0 = 0 := rfl

/-- The value of a number depends on its place alone. -/
theorem value_eq (x : Binary64) :
    x.value = if x.place < 0 then -(units x.place.natAbs : Int) else units x.place.natAbs := by
  cases x with
  | nan => rfl
  | number s m hm =>
    cases s with
    | false => simp [value, signedUnits, place, orderKey]
    | true =>
      rcases Nat.eq_zero_or_pos m with rfl | hpos
      · simp [value, signedUnits, place, orderKey, units_zero]
      · simp [value, signedUnits, place, orderKey, hpos]

/-! ## Rounding of signed quotients -/

/-- The place that a quotient is rounded to. -/
def roundPlace (num : Int) (den : Nat) : Int :=
  orderKey (decide (num < 0)) (roundMagnitude num.natAbs den)

theorem natAbs_orderKey (negative : Bool) (magnitude : Nat) :
    (orderKey negative magnitude).natAbs = magnitude := by
  cases negative <;> simp [orderKey]

theorem natAbs_roundPlace (num : Int) (den : Nat) :
    (roundPlace num den).natAbs = roundMagnitude num.natAbs den := natAbs_orderKey _ _

theorem roundPlace_mono {a c : Int} {b d : Nat} (hb : 0 < b) (hd : 0 < d) (h : a * d ≤ c * b) :
    roundPlace a b ≤ roundPlace c d := by
  have habs : ∀ (n : Int) (k : Nat), (n.natAbs * k : Nat) = (n * k).natAbs := by
    intro n k
    rw [Int.natAbs_mul, Int.natAbs_natCast]
  unfold roundPlace orderKey
  by_cases ha : a < 0
  · by_cases hc : c < 0
    · have hnum : c * b ≤ 0 := Int.mul_nonpos_of_nonpos_of_nonneg hc.le (Int.natCast_nonneg b)
      have hmono : roundMagnitude c.natAbs d ≤ roundMagnitude a.natAbs b := by
        apply roundMagnitude_mono hd hb
        rw [habs, habs]
        omega
      simp only [ha, hc, decide_true, if_true]
      omega
    · simp only [ha, hc, decide_true, decide_false, if_true, Bool.false_eq_true, if_false]
      omega
  · have hnum : 0 ≤ a * d := Int.mul_nonneg (by omega) (Int.natCast_nonneg d)
    have hc : ¬ c < 0 := by
      intro hc
      have hneg : c * b < 0 := Int.mul_neg_of_neg_of_pos hc (by omega)
      omega
    have hmono : roundMagnitude a.natAbs b ≤ roundMagnitude c.natAbs d := by
      apply roundMagnitude_mono hb hd
      rw [habs, habs]
      omega
    simp only [ha, hc, decide_false, Bool.false_eq_true, if_false]
    omega

theorem roundMagnitude_zero {den : Nat} (hden : 0 < den) : roundMagnitude 0 den = 0 := by
  have hunits := roundMagnitude_units (Nat.zero_le infinityMagnitude) hden
  rwa [units_zero, Nat.zero_mul] at hunits

/-- A signed quotient is rounded as the quotient without its sign. -/
theorem roundPlace_signed (negative : Bool) (num : Nat) {den : Nat} (hden : 0 < den) :
    roundPlace (if negative then -(num : Int) else num) den =
      orderKey negative (roundMagnitude num den) := by
  rcases Nat.eq_zero_or_pos num with rfl | hpos
  · cases negative <;> simp [roundPlace, roundMagnitude_zero hden, orderKey]
  · cases negative <;> simp [roundPlace, hpos, orderKey]

/-- A number that is a double already is rounded to itself. -/
theorem roundPlace_value (x : Binary64) {den : Nat} (hden : 0 < den) :
    roundPlace (x.value * den) den = x.place := by
  cases x with
  | nan => simp [roundPlace, value, place, roundMagnitude_zero hden, orderKey]
  | number s m hm =>
    have hvalue : value (.number s m hm) * den =
        if s then -((units m * den : Nat) : Int) else (units m * den : Nat) := by
      cases s <;> simp [value, signedUnits]
    rw [hvalue, roundPlace_signed s _ hden, roundMagnitude_units hm hden, place]

theorem value_le_value_iff {x y : Binary64} : x.value ≤ y.value ↔ x.place ≤ y.place := by
  have hplaces : ∀ {x y : Binary64}, x.value ≤ y.value → x.place ≤ y.place := by
    intro x y h
    have hmono := roundPlace_mono (b := 1) (d := 1) Nat.one_pos Nat.one_pos
      (a := x.value * (1 : Nat)) (c := y.value * (1 : Nat)) (by simpa using h)
    rwa [roundPlace_value x Nat.one_pos, roundPlace_value y Nat.one_pos] at hmono
  constructor
  · exact hplaces
  · intro h
    by_contra hlt
    -- the other order of the values would make the places, and with them the values, equal
    have heq : x.place = y.place := Int.le_antisymm h (hplaces (by omega))
    rw [value_eq x, value_eq y, heq] at hlt
    exact hlt (Int.le_refl _)

/-! ## Signs -/

/-- Small natural numbers are doubles. -/
theorem ofNat_spec :
    ∀ n ≤ 20, (ofNat n).isFinite = true ∧ (ofNat n).value = n * unitsOfOne := by
  decide +kernel

theorem zero_eq : (0 : Binary64) = zero := by decide +kernel

theorem isFinite_zero : (0 : Binary64).isFinite = true := (ofNat_spec 0 (by decide)).1

theorem zero_ne_nan : (0 : Binary64) ≠ .nan := ne_nan_of_isFinite isFinite_zero

theorem value_zero : (0 : Binary64).value = 0 := by
  rw [zero_eq]
  rfl

theorem place_zero : (0 : Binary64).place = 0 := by
  rw [zero_eq]
  rfl

theorem isFinite_one : (1 : Binary64).isFinite = true := (ofNat_spec 1 (by decide)).1

theorem value_one : (1 : Binary64).value = unitsOfOne :=
  (ofNat_spec 1 (by decide)).2.trans (Int.one_mul _)

theorem isFinite_ten : (10 : Binary64).isFinite = true := (ofNat_spec 10 (by decide)).1

theorem value_ten : (10 : Binary64).value = 10 * unitsOfOne := (ofNat_spec 10 (by decide)).2

theorem nonneg_iff {x : Binary64} : 0 ≤ x ↔ x ≠ .nan ∧ 0 ≤ x.value := by
  rw [le_iff, ← value_le_value_iff, value_zero]
  simp [zero_ne_nan]

theorem place_pos {x : Binary64} (hpos : 0 < x) : 0 < x.place := by
  have hplace := (lt_iff.mp hpos).2.2
  rwa [place_zero] at hplace

theorem pos_iff {x : Binary64} : 0 < x ↔ x ≠ .nan ∧ 0 < x.value := by
  rw [lt_iff, ← Int.not_le, ← value_le_value_iff, Int.not_le, value_zero]
  simp [zero_ne_nan]

theorem toNat_value_pos {x : Binary64} (hpos : 0 < x) : 0 < x.value.toNat := by
  have hvalue := (pos_iff.mp hpos).2
  omega

theorem zero_le_one : (0 : Binary64) ≤ 1 := by
  refine nonneg_iff.mpr ⟨ne_nan_of_isFinite isFinite_one, ?_⟩
  rw [value_one]
  exact Int.natCast_nonneg _

theorem zero_le_ten : (0 : Binary64) ≤ 10 := by
  refine nonneg_iff.mpr ⟨ne_nan_of_isFinite isFinite_ten, ?_⟩
  rw [value_ten]
  exact Int.mul_nonneg (by decide) (Int.natCast_nonneg _)

theorem negZero_nonneg : 0 ≤ negZero := by
  rw [zero_eq]
  decide

/-- Numbers from zero on are below a finite bound only if they are finite. -/
theorem isFinite_of_nonneg_of_le {x y : Binary64} (hy : y.isFinite = true) (hx : 0 ≤ x)
    (h : x ≤ y) : x.isFinite = true :=
  isFinite_of_le_of_le isFinite_zero hy hx h

/-! ## Clamping -/

theorem clamp_mem {x lo hi : Binary64} (hx : x ≠ .nan) (hbounds : lo ≤ hi) :
    lo ≤ x.clamp lo hi ∧ x.clamp lo hi ≤ hi := by
  obtain ⟨hlo, hhi, hplaces⟩ := le_iff.mp hbounds
  unfold clamp
  split_ifs with hbelow habove
  · exact ⟨le_refl hlo, hbounds⟩
  · exact ⟨hbounds, le_refl hhi⟩
  · exact ⟨(not_lt hx hlo).mp hbelow, (not_lt hhi hx).mp habove⟩

/-- What lies between the bounds stays as it is. -/
theorem clamp_of_mem {x lo hi : Binary64} (hlo : lo ≤ x) (hhi : x ≤ hi) : x.clamp lo hi = x := by
  have hbelow := (not_lt (le_iff.mp hlo).2.1 (le_iff.mp hlo).1).mpr hlo
  have habove := (not_lt (le_iff.mp hhi).2.1 (le_iff.mp hhi).1).mpr hhi
  rw [clamp, if_neg hbelow, if_neg habove]

theorem clamp_mono {x y lo hi : Binary64} (hbounds : lo ≤ hi) (h : x ≤ y) :
    x.clamp lo hi ≤ y.clamp lo hi := by
  obtain ⟨hx, hy, hplaces⟩ := le_iff.mp h
  obtain ⟨hlo, hhi, hends⟩ := le_iff.mp hbounds
  unfold clamp
  simp only [lt_iff, hx, hy, hlo, hhi, ne_eq, not_false_eq_true, true_and]
  split_ifs <;> refine le_iff.mpr ⟨‹_›, ‹_›, ?_⟩ <;> omega

end RiskGate.Binary64

import RiskGate.Proofs.Binary64.Order

/-! # Monotone arithmetic

Every operation on finite doubles rounds its exact result once, so it keeps the order of what it is
applied to. Overflow is no exception: infinity is the last place.

* `place_add`, `place_mul` and `place_div`, the place of a result as a rounded exact value;
* `add_le_add`, `mul_le_mul_right` and `div_le_div_right`: the operations are monotone;
* `mul_le_of_le_one` and `value_mul_le`: how far a rounded product can go;
* `isFinite_of_isFinite_foldl`: a finite sum has finite terms and finite partial sums;
* `foldl_add_ne_nan`: finite terms never add up to not-a-number, though they may overflow;
* `le_foldl_add`: a sum of non-negative terms is no less than each of them;
* `foldl_add_le`: sums of non-negative terms that are bounded one by one are bounded, and finite if
  the bound is;
* `isZero_foldl_add`: zeros add up to zero.
-/

namespace RiskGate.Binary64

/-! ## Results as rounded values -/

theorem roundMagnitude_le (num den : Nat) : roundMagnitude num den ≤ infinityMagnitude :=
  Nat.min_le_right _ _

theorem round_ne_nan (negative : Bool) (num den : Nat) : round negative num den ≠ .nan := by
  simp [round, ofMagnitude]

theorem place_round (negative : Bool) (num den : Nat) :
    (round negative num den).place = orderKey negative (roundMagnitude num den) := by
  simp [round, ofMagnitude, place, Nat.min_eq_left (roundMagnitude_le num den)]

theorem roundPlace_zero {den : Nat} (hden : 0 < den) : roundPlace 0 den = 0 := by
  simp [roundPlace, roundMagnitude_zero hden, orderKey]

theorem exists_of_isFinite {x : Binary64} (h : x.isFinite = true) :
    ∃ s m hm, x = number s m hm ∧ m ≠ infinityMagnitude := by
  cases x with
  | nan => cases h
  | number s m hm => exact ⟨s, m, hm, rfl, (of_decide_eq_true h).ne⟩

theorem exists_of_infinite {x : Binary64} (hx : x ≠ .nan) (h : x.isFinite = false) :
    ∃ s m hm, x = number s m hm ∧ m = infinityMagnitude := by
  cases x with
  | nan => exact absurd rfl hx
  | number s m hm =>
    exact ⟨s, m, hm, rfl, Nat.le_antisymm hm (Nat.not_lt.mp (of_decide_eq_false h))⟩

theorem place_add {x y : Binary64} (hx : x.isFinite = true) (hy : y.isFinite = true) :
    x + y ≠ .nan ∧ (x + y).place = roundPlace (x.value + y.value) 1 := by
  obtain ⟨s, m, hm, rfl, hm'⟩ := exists_of_isFinite hx
  obtain ⟨t, n, hn, rfl, hn'⟩ := exists_of_isFinite hy
  show Binary64.add _ _ ≠ _ ∧ place (Binary64.add _ _) = _
  simp only [Binary64.add, hm', hn', if_false, value]
  by_cases hsum : signedUnits s m + signedUnits t n = 0
  · refine ⟨by simp [hsum, ofMagnitude], ?_⟩
    simp only [signedUnits] at hsum
    simp only [signedUnits, hsum, if_true, roundPlace_zero Nat.one_pos]
    simp [ofMagnitude, place, orderKey]
  · simp only [hsum, if_false]
    exact ⟨round_ne_nan _ _ _, place_round _ _ _⟩

theorem place_mul {x y : Binary64} (hx : x.isFinite = true) (hy : y.isFinite = true) :
    x * y ≠ .nan ∧ (x * y).place = roundPlace (x.value * y.value) unitsOfOne := by
  obtain ⟨s, m, hm, rfl, hm'⟩ := exists_of_isFinite hx
  obtain ⟨t, n, hn, rfl, hn'⟩ := exists_of_isFinite hy
  have hround : number s m hm * number t n hn =
      round (s != t) (units m * units n) unitsOfOne := by
    unfold unitsOfOne
    exact (if_neg hm').trans (if_neg hn')
  rw [hround]
  refine ⟨round_ne_nan _ _ _, ?_⟩
  -- the signs multiply as the values do
  rw [place_round, value, value, ← roundPlace_signed _ _ unitsOfOne_pos]
  congr 1
  cases s <;> cases t <;> simp [signedUnits]

theorem units_pos {magnitude : Nat} (h : magnitude ≤ infinityMagnitude) (hpos : 0 < magnitude) :
    0 < units magnitude := by
  have hlt := (units_le_units_iff h (Nat.zero_le _)).not.mpr (by omega)
  rw [units_zero] at hlt
  omega

theorem number_pos {negative : Bool} {magnitude : Nat} {h : magnitude ≤ infinityMagnitude}
    (hpos : 0 < number negative magnitude h) : negative = false ∧ 0 < magnitude := by
  have hplace := place_pos hpos
  cases negative with
  | false => simpa [place, orderKey] using hplace
  | true =>
    simp only [place, orderKey, if_true] at hplace
    omega

/-- A quotient by a positive number. -/
theorem place_div {x y : Binary64} (hx : x.isFinite = true) (hy : y.isFinite = true)
    (hpos : 0 < y) :
    x / y ≠ .nan ∧ (x / y).place = roundPlace (x.value * unitsOfOne) y.value.toNat := by
  obtain ⟨s, m, hm, rfl, hm'⟩ := exists_of_isFinite hx
  obtain ⟨t, n, hn, rfl, hn'⟩ := exists_of_isFinite hy
  obtain ⟨rfl, hzero⟩ := number_pos hpos
  have hround : number s m hm / number false n hn =
      round (s != false) (units m * unitsOfOne) (units n) := by
    unfold unitsOfOne
    exact (if_neg hm').trans ((if_neg hn').trans (if_neg hzero.ne'))
  rw [hround]
  refine ⟨round_ne_nan _ _ _, ?_⟩
  have hunits : 0 < units n := units_pos hn hzero
  have hdivisor : (signedUnits false n).toNat = units n := by simp [signedUnits]
  rw [place_round, value, value, hdivisor, ← roundPlace_signed _ _ hunits]
  generalize unitsOfOne = one
  congr 1
  cases s <;> simp [signedUnits]

/-- An infinite number over a positive one stays. -/
theorem place_div_of_infinite {x y : Binary64} (hx : x ≠ .nan) (hinfinite : x.isFinite = false)
    (hy : y.isFinite = true) (hpos : 0 < y) : x / y ≠ .nan ∧ (x / y).place = x.place := by
  obtain ⟨s, m, hm, rfl, hm'⟩ := exists_of_infinite hx hinfinite
  obtain ⟨t, n, hn, rfl, hn'⟩ := exists_of_isFinite hy
  obtain ⟨rfl, -⟩ := number_pos hpos
  have hstays : number s m hm / number false n hn = infinity (s != false) :=
    (if_pos hm').trans (if_neg hn')
  rw [hstays]
  refine ⟨by simp [infinity, ofMagnitude], ?_⟩
  simp [infinity, ofMagnitude, place, hm']

/-! ## Monotonicity -/

theorem add_le_add {x x' y y' : Binary64} (hx : x.isFinite = true) (hx' : x'.isFinite = true)
    (hy : y.isFinite = true) (hy' : y'.isFinite = true) (hxx' : x ≤ x') (hyy' : y ≤ y') :
    x + y ≤ x' + y' := by
  obtain ⟨hne, hplace⟩ := place_add hx hy
  obtain ⟨hne', hplace'⟩ := place_add hx' hy'
  have hvalue := value_le_value_iff.mpr (le_iff.mp hxx').2.2
  have hvalue' := value_le_value_iff.mpr (le_iff.mp hyy').2.2
  refine le_iff.mpr ⟨hne, hne', ?_⟩
  rw [hplace, hplace']
  apply roundPlace_mono Nat.one_pos Nat.one_pos
  omega

theorem mul_le_mul_right {x x' y : Binary64} (hx : x.isFinite = true) (hx' : x'.isFinite = true)
    (hy : y.isFinite = true) (hnonneg : 0 ≤ y) (h : x ≤ x') : x * y ≤ x' * y := by
  obtain ⟨hne, hplace⟩ := place_mul hx hy
  obtain ⟨hne', hplace'⟩ := place_mul hx' hy
  have hvalue := value_le_value_iff.mpr (le_iff.mp h).2.2
  refine le_iff.mpr ⟨hne, hne', ?_⟩
  rw [hplace, hplace']
  apply roundPlace_mono unitsOfOne_pos unitsOfOne_pos
  apply Int.mul_le_mul_of_nonneg_right _ (Int.natCast_nonneg _)
  exact Int.mul_le_mul_of_nonneg_right hvalue (nonneg_iff.mp hnonneg).2

theorem div_le_div_right {x x' y : Binary64} (hy : y.isFinite = true) (hpos : 0 < y)
    (h : x ≤ x') : x / y ≤ x' / y := by
  obtain ⟨hx, hx', hplace⟩ := le_iff.mp h
  cases hfinite : x.isFinite with
  | true =>
    obtain ⟨hne, hquotient⟩ := place_div hfinite hy hpos
    cases hfinite' : x'.isFinite with
    | true =>
      obtain ⟨hne', hquotient'⟩ := place_div hfinite' hy hpos
      refine le_iff.mpr ⟨hne, hne', ?_⟩
      rw [hquotient, hquotient']
      apply roundPlace_mono (toNat_value_pos hpos) (toNat_value_pos hpos)
      apply Int.mul_le_mul_of_nonneg_right _ (Int.natCast_nonneg _)
      exact Int.mul_le_mul_of_nonneg_right (value_le_value_iff.mpr hplace) (Int.natCast_nonneg _)
    | false =>
      -- above a finite number there is only positive infinity
      obtain ⟨hne', hquotient'⟩ := place_div_of_infinite hx' hfinite' hy hpos
      have hinfinite := natAbs_place_of_infinite hx' hfinite'
      have hbelow := (isFinite_iff.mp hfinite).2
      have hbound := natAbs_place_le (x / y)
      exact le_iff.mpr ⟨hne, hne', by omega⟩
  | false =>
    obtain ⟨hne, hquotient⟩ := place_div_of_infinite hx hfinite hy hpos
    have hinfinite := natAbs_place_of_infinite hx hfinite
    have hbound := natAbs_place_le (x' / y)
    cases hfinite' : x'.isFinite with
    | true =>
      obtain ⟨hne', -⟩ := place_div hfinite' hy hpos
      have hbelow := (isFinite_iff.mp hfinite').2
      exact le_iff.mpr ⟨hne, hne', by omega⟩
    | false =>
      obtain ⟨hne', hquotient'⟩ := place_div_of_infinite hx' hfinite' hy hpos
      exact le_iff.mpr ⟨hne, hne', by omega⟩

/-! ## Products and quotients of non-negative numbers -/

theorem infinity_ne_nan (negative : Bool) : infinity negative ≠ .nan := Binary64.noConfusion

theorem infinite_mul {s t : Bool} {m n : Nat} {hm : m ≤ infinityMagnitude}
    {hn : n ≤ infinityMagnitude} (hm' : m = infinityMagnitude) :
    number s m hm * number t n hn = if n = 0 then .nan else infinity (s != t) := if_pos hm'

/-- Infinity times a number is not finite, whatever the number. -/
theorem isFinite_of_isFinite_mul {x y : Binary64} (h : (x * y).isFinite = true) :
    x.isFinite = true := by
  by_contra hinfinite
  cases x with
  | nan => cases h
  | number s m hm =>
  cases y with
  | nan => cases h
  | number t n hn =>
  have hm' : m = infinityMagnitude :=
    Nat.le_antisymm hm (Nat.not_lt.mp fun hlt => hinfinite (decide_eq_true hlt))
  rw [infinite_mul hm'] at h
  split_ifs at h
  · cases h
  · simp [infinity, ofMagnitude, isFinite] at h

theorem mul_nonneg {x y : Binary64} (hx : x.isFinite = true) (hy : y.isFinite = true)
    (hxnonneg : 0 ≤ x) (hynonneg : 0 ≤ y) : 0 ≤ x * y := by
  obtain ⟨hne, hplace⟩ := place_mul hx hy
  refine le_iff.mpr ⟨zero_ne_nan, hne, ?_⟩
  rw [hplace, place_zero, ← roundPlace_zero unitsOfOne_pos]
  apply roundPlace_mono unitsOfOne_pos unitsOfOne_pos
  rw [Int.zero_mul]
  apply Int.mul_nonneg _ (Int.natCast_nonneg _)
  exact Int.mul_nonneg (nonneg_iff.mp hxnonneg).2 (nonneg_iff.mp hynonneg).2

theorem place_one_mul {x : Binary64} (hx : x.isFinite = true) :
    1 * x ≠ .nan ∧ (1 * x).place = x.place := by
  obtain ⟨hne, hplace⟩ := place_mul isFinite_one hx
  refine ⟨hne, ?_⟩
  rw [hplace, value_one, Int.mul_comm, roundPlace_value x unitsOfOne_pos]

theorem mul_le_of_le_one {x y : Binary64} (hx : x.isFinite = true) (hy : y.isFinite = true)
    (hynonneg : 0 ≤ y) (hone : x ≤ 1) : x * y ≤ y := by
  obtain ⟨hne, hplace⟩ := place_one_mul hy
  have hle : 1 * y ≤ y := le_iff.mpr ⟨hne, ne_nan_of_isFinite hy, hplace.le⟩
  exact le_trans (mul_le_mul_right hx isFinite_one hy hynonneg hone) hle

/-- A factor between zero and one takes no number further from zero, whatever its sign. -/
theorem isFinite_mul_of_le_one {x y : Binary64} (hx : 0 ≤ x) (hone : x ≤ 1)
    (hy : y.isFinite = true) : (x * y).isFinite = true := by
  rcases place_mul (isFinite_of_nonneg_of_le isFinite_one hx hone) hy with ⟨hne, hplace⟩
  have hvalue : x.value.natAbs ≤ unitsOfOne := by
    have hlo := (nonneg_iff.mp hx).2
    have hhi := value_le_value_iff.mpr (le_iff.mp hone).2.2
    rw [value_one] at hhi
    omega
  have hle : (x * y).place.natAbs ≤ y.place.natAbs := by
    rw [hplace, ← roundPlace_value y unitsOfOne_pos, natAbs_roundPlace, natAbs_roundPlace,
      Int.natAbs_mul, Int.natAbs_mul, Int.natAbs_natCast]
    apply roundMagnitude_mono unitsOfOne_pos unitsOfOne_pos
    apply Nat.mul_le_mul_right
    rw [Nat.mul_comm]
    exact Nat.mul_le_mul_left _ hvalue
  have hbound := (isFinite_iff.mp hy).2
  exact isFinite_iff.mpr ⟨hne, by omega⟩

/-- A finite product is at most twice the exact one. -/
theorem value_mul_le {x y : Binary64} (hx : x.isFinite = true) (hy : y.isFinite = true)
    (hxnonneg : 0 ≤ x) (hynonneg : 0 ≤ y) (hproduct : (x * y).isFinite = true) :
    (x * y).value * unitsOfOne ≤ 2 * (x.value * y.value) := by
  have hexact : 0 ≤ x.value * y.value :=
    Int.mul_nonneg (nonneg_iff.mp hxnonneg).2 (nonneg_iff.mp hynonneg).2
  obtain ⟨-, hplace⟩ := place_mul hx hy
  obtain ⟨-, hfinite⟩ := isFinite_iff.mp hproduct
  obtain ⟨num, hnum⟩ := Int.eq_ofNat_of_zero_le hexact
  have hround : (x * y).place = roundMagnitude num unitsOfOne := by
    rw [hplace, hnum]
    exact roundPlace_signed false num unitsOfOne_pos
  have hvalue : (x * y).value = units (roundMagnitude num unitsOfOne) := by
    rw [value_eq, hround, if_neg (by omega), Int.natAbs_natCast]
  rw [hround, Int.natAbs_natCast] at hfinite
  have hbound := units_roundMagnitude_le unitsOfOne_pos hfinite
  rw [hvalue, hnum]
  exact_mod_cast hbound

theorem div_nonneg {x y : Binary64} (hx : 0 ≤ x) (hy : y.isFinite = true) (hpos : 0 < y) :
    0 ≤ x / y := by
  obtain ⟨hne, hplace⟩ := place_div isFinite_zero hy hpos
  have hzero : 0 ≤ 0 / y := by
    refine le_iff.mpr ⟨zero_ne_nan, hne, ?_⟩
    rw [hplace, value_zero, Int.zero_mul, roundPlace_zero (toNat_value_pos hpos), place_zero]
  exact le_trans hzero (div_le_div_right hy hpos hx)

/-- A number that is scaled and divided by itself stays in reach of the factor. -/
theorem mul_ten_div_self_le {x : Binary64} (hx : x.isFinite = true) (hpositive : 0 < x)
    (hscaled : (x * 10).isFinite = true) : x * 10 / x ≤ ofNat 20 := by
  obtain ⟨htwenty, hvalue⟩ := ofNat_spec 20 (Nat.le_refl _)
  -- rounding at most doubles the product, so the exact quotient is at most 20, which is a double
  have hproduct : (x * 10).value ≤ 20 * x.value := by
    have hbound := value_mul_le hx isFinite_ten (le_of_lt hpositive) zero_le_ten hscaled
    apply Int.le_of_mul_le_mul_right _ (Int.natCast_pos.mpr unitsOfOne_pos)
    calc (x * 10).value * unitsOfOne ≤ 2 * (x.value * (10 : Binary64).value) := hbound
      _ = 20 * x.value * unitsOfOne := by rw [value_ten]; ring
  have hdivisor : (x.value.toNat : Int) = x.value :=
    Int.toNat_of_nonneg (pos_iff.mp hpositive).2.le
  obtain ⟨hne, hplace⟩ := place_div hscaled hx hpositive
  refine le_iff.mpr ⟨hne, ne_nan_of_isFinite htwenty, ?_⟩
  rw [hplace, ← roundPlace_value _ Nat.one_pos]
  apply roundPlace_mono (toNat_value_pos hpositive) Nat.one_pos
  calc (x * 10).value * unitsOfOne * (1 : Nat)
      = (x * 10).value * unitsOfOne := Int.mul_one _
    _ ≤ 20 * x.value * unitsOfOne :=
      Int.mul_le_mul_of_nonneg_right hproduct (Int.natCast_nonneg _)
    _ = (ofNat 20).value * (1 : Nat) * x.value.toNat := by
      rw [hvalue, hdivisor, Int.natCast_one]
      ring

/-! ## Finite sums, and sums that are numbers -/

/-- A finite sum has finite terms. -/
theorem isFinite_of_isFinite_add {x y : Binary64} (hsum : (x + y).isFinite = true) :
    x.isFinite = true ∧ y.isFinite = true := by
  cases x with
  | nan => cases hsum
  | number s m hm =>
  cases y with
  | nan => cases hsum
  | number t n hn =>
  have hm' : m ≠ infinityMagnitude := by
    intro hm'
    have hstays : number s m hm + number t n hn =
        if n = infinityMagnitude ∧ s ≠ t then .nan else number s m hm := if_pos hm'
    rw [hstays] at hsum
    split_ifs at hsum
    · cases hsum
    · simp [isFinite, hm'] at hsum
  have hn' : n ≠ infinityMagnitude := by
    intro hn'
    have hstays : number s m hm + number t n hn = number t n hn :=
      (if_neg hm').trans (if_pos hn')
    rw [hstays] at hsum
    simp [isFinite, hn'] at hsum
  exact ⟨decide_eq_true (by omega), decide_eq_true (by omega)⟩

/-- A sum that ends finite has been finite throughout, and so have its terms. -/
theorem isFinite_of_isFinite_foldl {terms : List Binary64} {start : Binary64}
    (hsum : (terms.foldl (· + ·) start).isFinite = true) :
    start.isFinite = true ∧ ∀ x ∈ terms, x.isFinite = true := by
  induction terms generalizing start with
  | nil => exact ⟨hsum, List.forall_mem_nil _⟩
  | cons x terms ih =>
    rcases ih hsum with ⟨hnext, hterms⟩
    rcases isFinite_of_isFinite_add hnext with ⟨hstart, hx⟩
    exact ⟨hstart, List.forall_mem_cons.mpr ⟨hx, hterms⟩⟩

/-- A finite number does not move an infinite one. -/
theorem infinite_add {x y : Binary64} (hx : x ≠ .nan) (hinfinite : x.isFinite = false)
    (hy : y.isFinite = true) : x + y = x := by
  obtain ⟨s, m, hm, rfl, hm'⟩ := exists_of_infinite hx hinfinite
  obtain ⟨t, n, hn, rfl, hn'⟩ := exists_of_isFinite hy
  have hsame : ¬ (n = infinityMagnitude ∧ s ≠ t) := fun h => hn' h.1
  exact (if_pos hm').trans (if_neg hsame)

/-- A number may become infinite by adding finite ones, but it stays a number. -/
theorem add_ne_nan {x y : Binary64} (hx : x ≠ .nan) (hy : y.isFinite = true) : x + y ≠ .nan := by
  cases hfinite : x.isFinite with
  | true => exact (place_add hfinite hy).1
  | false =>
    rw [infinite_add hx hfinite hy]
    exact hx

theorem foldl_add_ne_nan {terms : List Binary64} (hterms : ∀ x ∈ terms, x.isFinite = true)
    {start : Binary64} (hstart : start ≠ .nan) : terms.foldl (· + ·) start ≠ .nan := by
  induction terms generalizing start with
  | nil => exact hstart
  | cons x terms ih =>
    rcases List.forall_mem_cons.mp hterms with ⟨hx, hrest⟩
    exact ih hrest (add_ne_nan hstart hx)

theorem mul_ne_nan {x y : Binary64} (hx : x ≠ .nan) (hy : y.isFinite = true) (hpos : 0 < y) :
    x * y ≠ .nan := by
  cases hfinite : x.isFinite with
  | true => exact (place_mul hfinite hy).1
  | false =>
    obtain ⟨s, m, hm, rfl, hm'⟩ := exists_of_infinite hx hfinite
    obtain ⟨t, n, hn, rfl, -⟩ := exists_of_isFinite hy
    obtain ⟨rfl, hzero⟩ := number_pos hpos
    rw [infinite_mul hm', if_neg hzero.ne']
    exact infinity_ne_nan _

theorem div_ne_nan {x y : Binary64} (hx : x ≠ .nan) (hy : y.isFinite = true) (hpos : 0 < y) :
    x / y ≠ .nan := by
  cases hfinite : x.isFinite with
  | true => exact (place_div hfinite hy hpos).1
  | false => exact (place_div_of_infinite hx hfinite hy hpos).1

/-! ## Sums of non-negative numbers -/

theorem eq_infinity {x : Binary64} (hx : 0 ≤ x) (hinfinite : x.isFinite = false) :
    x = infinity false := by
  obtain ⟨hne, hvalue⟩ := nonneg_iff.mp hx
  obtain ⟨s, m, hm, rfl, rfl⟩ := exists_of_infinite hne hinfinite
  cases s with
  | false => rfl
  | true =>
    have hunits : 0 < units infinityMagnitude := units_pos (Nat.le_refl _) (by decide)
    simp only [value, signedUnits, if_true] at hvalue
    omega

theorem infinity_add {y : Binary64} (hy : 0 ≤ y) : infinity false + y = infinity false := by
  cases hfinite : y.isFinite with
  | false =>
    rw [eq_infinity hy hfinite]
    rfl
  | true =>
    obtain ⟨t, n, hn, rfl, hn'⟩ := exists_of_isFinite hfinite
    have hsame : ¬ (n = infinityMagnitude ∧ false ≠ t) := fun h => hn' h.1
    show Binary64.add _ _ = _
    simp only [Binary64.add, infinity, ofMagnitude, Nat.min_self, if_true, if_neg hsame]

theorem add_infinity {x : Binary64} (hx : 0 ≤ x) : x + infinity false = infinity false := by
  cases hfinite : x.isFinite with
  | false =>
    rw [eq_infinity hx hfinite]
    rfl
  | true =>
    obtain ⟨s, m, hm, rfl, hm'⟩ := exists_of_isFinite hfinite
    exact (if_neg hm').trans (if_pos rfl)

theorem add_nonneg {x y : Binary64} (hx : 0 ≤ x) (hy : 0 ≤ y) : 0 ≤ x + y := by
  have hinfinity : 0 ≤ infinity false := by
    rw [zero_eq]
    decide
  cases hfinite : x.isFinite with
  | false =>
    rw [eq_infinity hx hfinite, infinity_add hy]
    exact hinfinity
  | true =>
    cases hfinite' : y.isFinite with
    | false =>
      rw [eq_infinity hy hfinite', add_infinity hx]
      exact hinfinity
    | true =>
      obtain ⟨hne, hplace⟩ := place_add hfinite hfinite'
      refine le_iff.mpr ⟨zero_ne_nan, hne, ?_⟩
      rw [hplace, place_zero, ← roundPlace_zero Nat.one_pos]
      apply roundPlace_mono Nat.one_pos Nat.one_pos
      have hvalue := (nonneg_iff.mp hx).2
      have hvalue' := (nonneg_iff.mp hy).2
      omega

theorem foldl_add_nonneg {terms : List Binary64} (hterms : ∀ x ∈ terms, 0 ≤ x) {start : Binary64}
    (hstart : 0 ≤ start) : 0 ≤ terms.foldl (· + ·) start := by
  induction terms generalizing start with
  | nil => exact hstart
  | cons x terms ih =>
    have hx := hterms x List.mem_cons_self
    exact ih (fun y hy => hterms y (List.mem_cons_of_mem _ hy)) (add_nonneg hstart hx)

theorem le_infinity {x : Binary64} (hx : x ≠ .nan) : x ≤ infinity false := by
  have hbound := natAbs_place_le x
  have hplace : (infinity false).place = infinityMagnitude := rfl
  exact le_iff.mpr ⟨hx, infinity_ne_nan _, by omega⟩

/-- A sum is no less than either of its terms. -/
theorem le_add {x y : Binary64} (hx : 0 ≤ x) (hy : 0 ≤ y) : x ≤ x + y ∧ y ≤ x + y := by
  obtain ⟨hxne, hxvalue⟩ := nonneg_iff.mp hx
  obtain ⟨hyne, hyvalue⟩ := nonneg_iff.mp hy
  cases hfinite : x.isFinite with
  | false =>
    rw [eq_infinity hx hfinite, infinity_add hy]
    exact ⟨le_infinity (infinity_ne_nan _), le_infinity hyne⟩
  | true =>
    cases hfinite' : y.isFinite with
    | false =>
      rw [eq_infinity hy hfinite', add_infinity hx]
      exact ⟨le_infinity hxne, le_infinity (infinity_ne_nan _)⟩
    | true =>
      -- rounding keeps the order of the exact sum and its terms, which are doubles already
      obtain ⟨hne, hplace⟩ := place_add hfinite hfinite'
      rw [le_iff, le_iff, hplace, ← roundPlace_value x Nat.one_pos,
        ← roundPlace_value y Nat.one_pos]
      exact ⟨⟨hxne, hne, roundPlace_mono Nat.one_pos Nat.one_pos (by omega)⟩,
        hyne, hne, roundPlace_mono Nat.one_pos Nat.one_pos (by omega)⟩

theorem le_foldl_add {terms : List Binary64} (hterms : ∀ x ∈ terms, 0 ≤ x) {start : Binary64}
    (hstart : 0 ≤ start) : start ≤ terms.foldl (· + ·) start ∧
      ∀ x ∈ terms, x ≤ terms.foldl (· + ·) start := by
  induction terms generalizing start with
  | nil => exact ⟨le_refl (nonneg_iff.mp hstart).1, List.forall_mem_nil _⟩
  | cons y terms ih =>
    rcases List.forall_mem_cons.mp hterms with ⟨hy, hrest⟩
    rcases le_add hstart hy with ⟨hleft, hright⟩
    rcases ih hrest (add_nonneg hstart hy) with ⟨hnext, hall⟩
    exact ⟨le_trans hleft hnext, List.forall_mem_cons.mpr ⟨le_trans hright hnext, hall⟩⟩

/-- Terms that are bounded one by one have a bounded sum, which is finite if the bound is. -/
theorem foldl_add_le {α : Type} {terms : List α} {f g : α → Binary64}
    (hterms : ∀ t ∈ terms, 0 ≤ f t ∧ f t ≤ g t) {a b : Binary64} (ha : 0 ≤ a) (hab : a ≤ b)
    (hsum : ((terms.map g).foldl (· + ·) b).isFinite = true) :
    ((terms.map f).foldl (· + ·) a).isFinite = true ∧
      (terms.map f).foldl (· + ·) a ≤ (terms.map g).foldl (· + ·) b := by
  induction terms generalizing a b with
  | nil => exact ⟨isFinite_of_nonneg_of_le hsum ha hab, hab⟩
  | cons t terms ih =>
    obtain ⟨hf, hfg⟩ := hterms t List.mem_cons_self
    have hrest : ∀ u ∈ terms, 0 ≤ f u ∧ f u ≤ g u := fun u hu =>
      hterms u (List.mem_cons_of_mem _ hu)
    -- the larger sum ends finite, so its start and terms are finite, and so are the smaller ones
    rcases isFinite_of_isFinite_foldl hsum with ⟨hbfinite, hbounds⟩
    have hgfinite := hbounds (g t) List.mem_cons_self
    have hafinite := isFinite_of_nonneg_of_le hbfinite ha hab
    have hffinite := isFinite_of_nonneg_of_le hgfinite hf hfg
    exact ih hrest (add_nonneg ha hf) (add_le_add hafinite hbfinite hffinite hgfinite hab hfg) hsum

/-! ## Sums of zeros -/

/-- Zero, with either sign. -/
def IsZero (x : Binary64) : Prop := x ≠ .nan ∧ x.place = 0

theorem isZero_negZero : negZero.IsZero := ⟨Binary64.noConfusion, rfl⟩

theorem isZero_of_nonneg {x : Binary64} (hnonneg : 0 ≤ x) (hpos : ¬ 0 < x) : x.IsZero := by
  rw [le_iff, place_zero] at hnonneg
  rw [lt_iff, place_zero] at hpos
  have hplace : ¬ 0 < x.place := fun h => hpos ⟨hnonneg.1, hnonneg.2.1, h⟩
  exact ⟨hnonneg.2.1, by omega⟩

theorem IsZero.isFinite {x : Binary64} (hx : x.IsZero) : x.isFinite = true := by
  rw [isFinite_iff, hx.2]
  exact ⟨hx.1, by decide⟩

theorem IsZero.value {x : Binary64} (hx : x.IsZero) : x.value = 0 := by
  rw [value_eq, hx.2]
  rfl

theorem IsZero.add {x y : Binary64} (hx : x.IsZero) (hy : y.IsZero) : (x + y).IsZero := by
  rcases place_add hx.isFinite hy.isFinite with ⟨hne, hplace⟩
  rw [hx.value, hy.value, Int.add_zero, roundPlace_zero Nat.one_pos] at hplace
  exact ⟨hne, hplace⟩

theorem isZero_foldl_add {terms : List Binary64} (hterms : ∀ x ∈ terms, x.IsZero)
    {start : Binary64} (hstart : start.IsZero) : (terms.foldl (· + ·) start).IsZero :=
  List.foldlRecOn _ _ hstart fun _ hsum x hx => hsum.add (hterms x hx)

end RiskGate.Binary64

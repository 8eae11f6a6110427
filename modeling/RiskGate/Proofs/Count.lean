import Mathlib
import RiskGate.Count

/-! # Arithmetic of counts

`Count.ofNat` maps the arithmetic of natural numbers to that of counts, so a total may be computed
without a limit and cut once, at the end.
-/

namespace RiskGate.Count

theorem ext_toNat {a b : Count} (h : a.toNat = b.toNat) : a = b := by
  cases a
  cases b
  simp_all

@[simp] theorem toNat_ofNat (n : Nat) : (ofNat n).toNat = min n countLimit := rfl

@[simp] theorem toNat_add (a b : Count) : (a + b).toNat = min (a.toNat + b.toNat) countLimit := rfl

@[simp] theorem toNat_max (a b : Count) : (max a b).toNat = max a.toNat b.toNat := by
  show min (max a.toNat b.toNat) countLimit = max a.toNat b.toNat
  have ha := a.le_limit
  have hb := b.le_limit
  omega

@[simp] theorem toNat_zero : (0 : Count).toNat = 0 := rfl

@[simp] theorem ofNat_zero : ofNat 0 = 0 := rfl

theorem lt_iff {a b : Count} : a < b ↔ a.toNat < b.toNat := Iff.rfl

/-- A count is what is left of its value. -/
@[simp] theorem ofNat_toNat (a : Count) : ofNat a.toNat = a := by
  apply ext_toNat
  have ha := a.le_limit
  simp only [toNat_ofNat]
  omega

@[simp] theorem add_zero (a : Count) : a + 0 = a := by
  apply ext_toNat
  have ha := a.le_limit
  simp only [toNat_add, toNat_zero]
  omega

@[simp] theorem zero_add (a : Count) : 0 + a = a := by
  apply ext_toNat
  have ha := a.le_limit
  simp only [toNat_add, toNat_zero]
  omega

theorem add_comm (a b : Count) : a + b = b + a := by
  apply ext_toNat
  simp only [toNat_add]
  omega

theorem add_assoc (a b c : Count) : a + b + c = a + (b + c) := by
  apply ext_toNat
  simp only [toNat_add]
  omega

theorem ofNat_add (m n : Nat) : ofNat m + ofNat n = ofNat (m + n) := by
  apply ext_toNat
  simp only [toNat_add, toNat_ofNat]
  omega

theorem ofNat_succ (n : Nat) : ofNat n + 1 = ofNat (n + 1) := ofNat_add n 1

theorem max_ofNat (m n : Nat) : max (ofNat m) (ofNat n) = ofNat (max m n) := by
  apply ext_toNat
  simp only [toNat_max, toNat_ofNat]
  omega

theorem toNat_ofNat_mono {m n : Nat} (h : m ≤ n) : (ofNat m).toNat ≤ (ofNat n).toNat := by
  simp only [toNat_ofNat]
  omega

theorem ofNat_eq_zero_iff {n : Nat} : ofNat n = 0 ↔ n = 0 := by
  have hlimit : 0 < countLimit := by decide
  constructor
  · intro h
    have hvalue := congrArg toNat h
    rw [toNat_ofNat, toNat_zero] at hvalue
    omega
  · rintro rfl
    rfl

theorem ofNat_pos_iff {n : Nat} : 0 < ofNat n ↔ 0 < n := by
  have hlimit : 0 < countLimit := by decide
  rw [lt_iff, toNat_ofNat, toNat_zero]
  omega

/-- Cutting every term changes nothing about a sum that is cut. -/
theorem sum_map_ofNat (terms : List Nat) : sum (terms.map ofNat) = ofNat terms.sum := by
  have hfold : ∀ start : Nat, (terms.map ofNat).foldl (· + ·) (ofNat start) =
      ofNat (start + terms.sum) := by
    induction terms with
    | nil =>
        intro start
        simp
    | cons n terms ih =>
        intro start
        rw [List.map_cons, List.foldl_cons, ofNat_add, ih, List.sum_cons, Nat.add_assoc]
  rw [show sum (terms.map ofNat) = (terms.map ofNat).foldl (· + ·) (ofNat 0) from rfl, hfold 0,
    Nat.zero_add]

/-- Adding up counts one by one is cutting their total. -/
theorem sum_eq (counts : List Count) : sum counts = ofNat (counts.map (·.toNat)).sum := by
  rw [← sum_map_ofNat, List.map_map]
  simp [Function.comp_def]

/-- A sum does not depend on the order of its terms, not even where it is cut. -/
theorem sum_perm {counts counts' : List Count} (h : counts.Perm counts') :
    sum counts = sum counts' := by
  rw [sum_eq, sum_eq, (h.map _).sum_eq]

/-- A sum is positive exactly if one of its terms is. -/
theorem sum_pos_iff {counts : List Count} : 0 < sum counts ↔ ∃ c ∈ counts, 0 < c := by
  have hlimit : 0 < countLimit := by decide
  have hsum : 0 < sum counts ↔ 0 < (counts.map (·.toNat)).sum := by
    rw [lt_iff, sum_eq, toNat_ofNat, toNat_zero]
    omega
  rw [hsum, List.sum_pos_iff_exists_pos_nat]
  constructor
  · rintro ⟨n, hn, hpos⟩
    obtain ⟨c, hc, rfl⟩ := List.mem_map.mp hn
    exact ⟨c, hc, hpos⟩
  · rintro ⟨c, hc, hpos⟩
    exact ⟨c.toNat, List.mem_map_of_mem hc, hpos⟩

end RiskGate.Count

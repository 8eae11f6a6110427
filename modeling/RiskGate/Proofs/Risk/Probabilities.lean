import RiskGate.Proofs.Binary64.Order
import RiskGate.Risk.Probabilities

/-! # Probabilities, category by category

What the operations on probabilities do to each category, so that no proof has to go through all of
them again.

* `PerCategory.ext_get`, `PerCategory.get_set` and `PerCategory.get_map`: values by their category;
* `Probabilities.sanitize_eq_self_iff`: sanitizing keeps the numbers between 0 and 1, and `map_map`
  carries that to all values;
* `Probabilities.filter_entries`: the given probabilities above a threshold, and with `any_get_iff`
  why absent ones may be read as 0 there.
-/

namespace RiskGate

open Binary64

/-! ## Values by category -/

theorem Category.mem_all (c : Category) : c ∈ all := by cases c <;> decide

theorem Category.lookup_name (c : Category) : names.lookup c.name = some c := by
  cases c <;> rfl

instance : Nonempty Category := ⟨.reentrancy⟩

instance : Fintype Category where
  elems := ⟨Category.all, by decide⟩
  complete := Category.mem_all

namespace PerCategory

variable {α β γ : Type}

@[simp] theorem get_of (value : Category → α) (c : Category) : (of value).get c = value c := by
  cases c <;> rfl

theorem ext_get {a b : PerCategory α} (h : ∀ c, a.get c = b.get c) : a = b := by
  cases a
  cases b
  rw [PerCategory.mk.injEq]
  exact ⟨h .reentrancy, h .uncheckedExternalCall, h .accessControl, h .dangerousConstruct⟩

theorem get_set (values : PerCategory α) (c d : Category) (value : α) :
    (values.set c value).get d = if d = c then value else values.get d :=
  get_of _ d

theorem get_map (f : α → β) (values : PerCategory α) (c : Category) :
    (values.map f).get c = f (values.get c) :=
  get_of _ c

theorem map_set (f : α → β) (values : PerCategory α) (c : Category) (value : α) :
    (values.set c value).map f = (values.map f).set c (f value) := by
  apply ext_get
  intro d
  rw [get_map, get_set, get_set, get_map]
  split_ifs <;> rfl

theorem map_map (g : β → γ) (f : α → β) (values : PerCategory α) :
    (values.map f).map g = values.map (g ∘ f) := by
  apply ext_get
  intro c
  rw [get_map, get_map, get_map, Function.comp_apply]

end PerCategory

namespace Probabilities

/-! ## Single values -/

/-- Sanitized probabilities are numbers between 0 and 1. -/
theorem sanitize_mem (value : Binary64) : 0 ≤ sanitize value ∧ sanitize value ≤ 1 := by
  unfold sanitize
  split_ifs with hfinite
  · exact clamp_mem (ne_nan_of_isFinite hfinite) zero_le_one
  · exact ⟨le_refl zero_ne_nan, zero_le_one⟩

theorem sanitize_of_mem {value : Binary64} (hlo : 0 ≤ value) (hhi : value ≤ 1) :
    sanitize value = value := by
  rw [sanitize, if_pos (isFinite_of_nonneg_of_le isFinite_one hlo hhi), clamp_of_mem hlo hhi]

theorem sanitize_eq_self_iff {value : Binary64} :
    sanitize value = value ↔ 0 ≤ value ∧ value ≤ 1 := by
  constructor
  · intro h
    rw [← h]
    exact sanitize_mem value
  · exact fun h => sanitize_of_mem h.1 h.2

theorem sanitize_sanitize (value : Binary64) : sanitize (sanitize value) = sanitize value :=
  sanitize_eq_self_iff.mpr (sanitize_mem value)

/-! ## Given and absent probabilities -/

theorem get_insert (p : Probabilities) (c d : Category) (value : Binary64) :
    PerCategory.get (p.insert c value) d = if d = c then some value else PerCategory.get p d :=
  PerCategory.get_set p c d (some value)

theorem get_sanitized (p : Probabilities) (c : Category) :
    PerCategory.get p.sanitized c = (PerCategory.get p c).map sanitize :=
  PerCategory.get_map _ p c

theorem mem_of_get_sanitized {p : Probabilities} {c : Category} {value : Binary64}
    (h : PerCategory.get p.sanitized c = some value) : 0 ≤ value ∧ value ≤ 1 := by
  rw [get_sanitized, Option.map_eq_some_iff] at h
  rcases h with ⟨raw, -, rfl⟩
  exact sanitize_mem raw

theorem probability_sanitized (p : Probabilities) (c : Category) :
    p.sanitized.probability c = sanitize (p.probability c) := by
  rw [probability, probability, get_sanitized]
  cases PerCategory.get p c with
  | none =>
    rw [Option.map_none, Option.getD_none, ← zero_eq]
    exact (sanitize_of_mem (le_refl zero_ne_nan) zero_le_one).symm
  | some value => rfl

/-! ## Entries -/

theorem mem_entries {p : Probabilities} {c : Category} {value : Binary64} :
    (c, value) ∈ p.entries ↔ PerCategory.get p c = some value := by
  simp [entries, Category.mem_all]

theorem entries_sanitized (p : Probabilities) :
    p.sanitized.entries = p.entries.map fun (c, value) => (c, sanitize value) := by
  rw [entries, entries, List.map_filterMap]
  apply List.filterMap_congr
  intro c _
  simp [get_sanitized, Function.comp_def]

/-- Every given probability is between 0 and 1 once it is sanitized. -/
theorem entries_sanitized_mem (p : Probabilities) :
    ∀ entry ∈ p.sanitized.entries, 0 ≤ entry.2 ∧ entry.2 ≤ 1 :=
  fun _ hentry => mem_of_get_sanitized (mem_entries.mp hentry)

/-! ## Thresholds -/

/-- The given probabilities above a threshold, read off category by category. -/
theorem filter_entries (p : Probabilities) (threshold : Binary64) :
    p.entries.filter (fun (_, value) => threshold < value) =
      (Category.all.filter fun c => (PerCategory.get p c).any (threshold < ·)).map
        fun c => (c, p.probability c) := by
  rw [entries, List.filter_filterMap, ← List.filterMap_eq_map, List.filterMap_filter]
  apply List.filterMap_congr
  intro c _
  cases hget : PerCategory.get p c with
  | none => rfl
  | some value => simp [probability, hget, Option.filter]

theorem above_eq_filter (p : Probabilities) (threshold : Binary64) :
    p.above threshold =
      Category.all.filter fun c => (PerCategory.get p c).any (threshold < ·) := by
  rw [above, filter_entries, List.map_map]
  exact List.map_id _

/-- An absent probability reads as 0, and that is not above a threshold from 0 on. -/
theorem any_get_iff {p : Probabilities} {threshold : Binary64} (hthreshold : 0 ≤ threshold)
    {c : Category} :
    (PerCategory.get p c).any (threshold < ·) = true ↔ threshold < p.probability c := by
  unfold probability
  cases PerCategory.get p c with
  | none =>
    have hzero : ¬ threshold < 0 :=
      (not_lt (le_iff.mp hthreshold).2.1 zero_ne_nan).mpr hthreshold
    rw [Option.any_none, Option.getD_none, ← zero_eq]
    exact iff_of_false Bool.false_ne_true hzero
  | some value => exact decide_eq_true_iff

theorem mem_above {p : Probabilities} {threshold : Binary64} (hthreshold : 0 ≤ threshold)
    {c : Category} : c ∈ p.above threshold ↔ threshold < p.probability c := by
  rw [above_eq_filter, List.mem_filter, any_get_iff hthreshold]
  exact and_iff_right (Category.mem_all c)

end Probabilities

end RiskGate

import Mathlib
import RiskGate.Listing

/-! # First occurrences

Listing the items of a list by their first occurrence keeps one of each, in the order in which they
were first seen.

* `unseen_eq_filter` and `firstOccurrences_cons`: the scan with its set of seen items, item by item;
* `mem_firstOccurrences`, `nodup_firstOccurrences` and `firstOccurrences_sublist`: which items are
  listed, and that none is listed twice;
* `firstOccurrences_append`: what later items add to earlier ones;
* `firstOccurrences_eq_eraseDups`: the same as striking out everything that was seen before;
* `pairwise_idxOf_firstOccurrences`: the order is that of the first occurrences;
* `firstOccurrences_insert`: items that were seen before change nothing.
-/

namespace RiskGate

section

variable {α : Type} [DecidableEq α]

/-! ## The scan -/

/-- A scan keeps what a scan that has seen nothing keeps, except for what it has seen. -/
theorem unseen_eq_filter (seen xs : List α) :
    unseen seen xs = (unseen [] xs).filter (· ∉ seen) := by
  induction xs generalizing seen with
  | nil => rfl
  | cons x xs ih =>
    rw [unseen, unseen, if_neg List.not_mem_nil, ih [x]]
    by_cases hx : x ∈ seen
    · rw [if_pos hx, ih seen, List.filter_cons_of_neg (by simp [hx]), List.filter_filter]
      apply List.filter_congr
      intro y _
      by_cases hy : y = x
      · simp [hy, hx]
      · simp [hy]
    · rw [if_neg hx, ih (x :: seen), List.filter_cons_of_pos (by simp [hx]), List.filter_filter]
      congr 1
      apply List.filter_congr
      intro y _
      simp [Bool.and_comm]

/-- The first item is kept, and of the others those that differ from it. -/
theorem firstOccurrences_cons (x : α) (xs : List α) :
    firstOccurrences (x :: xs) = x :: (firstOccurrences xs).filter (· ≠ x) := by
  rw [firstOccurrences, unseen, if_neg List.not_mem_nil, unseen_eq_filter]
  simp only [firstOccurrences, List.mem_singleton, ne_eq]

/-! ## Which items are listed -/

theorem mem_firstOccurrences {x : α} {xs : List α} : x ∈ firstOccurrences xs ↔ x ∈ xs := by
  induction xs with
  | nil => rfl
  | cons y ys ih =>
    rw [firstOccurrences_cons, List.mem_cons, List.mem_cons, List.mem_filter, ih,
      decide_eq_true_eq]
    -- an item is the one in front, or it is another one and listed after it
    by_cases hx : x = y
    · simp only [hx, true_or]
    · simp only [hx, ne_eq, not_false_eq_true, and_true]

theorem nodup_firstOccurrences (xs : List α) : (firstOccurrences xs).Nodup := by
  induction xs with
  | nil => exact List.nodup_nil
  | cons x xs ih =>
    rw [firstOccurrences_cons, List.nodup_cons]
    refine ⟨?_, ih.filter _⟩
    intro hmem
    exact of_decide_eq_true (List.mem_filter.mp hmem).2 rfl

theorem firstOccurrences_sublist (xs : List α) : (firstOccurrences xs).Sublist xs := by
  induction xs with
  | nil => exact List.Sublist.refl _
  | cons x xs ih =>
    rw [firstOccurrences_cons]
    exact (List.filter_sublist.trans ih).cons_cons x

/-- A list without repeats is listed as it is. -/
theorem firstOccurrences_of_nodup {xs : List α} (h : xs.Nodup) : firstOccurrences xs = xs := by
  induction xs with
  | nil => rfl
  | cons x xs ih =>
    rw [List.nodup_cons] at h
    rw [firstOccurrences_cons, ih h.2]
    congr 1
    rw [List.filter_eq_self]
    exact fun y hy => decide_eq_true fun hyx => h.1 (hyx ▸ hy)

/-! ## Earlier and later items -/

/-- Later items are listed as far as they are not among the earlier ones. -/
theorem firstOccurrences_append (xs ys : List α) :
    firstOccurrences (xs ++ ys) =
      firstOccurrences xs ++ (firstOccurrences ys).filter (· ∉ xs) := by
  induction xs with
  | nil => simp [firstOccurrences, unseen]
  | cons x xs ih =>
    rw [List.cons_append, firstOccurrences_cons, firstOccurrences_cons, ih, List.filter_append,
      List.filter_filter, List.cons_append]
    congr 2
    apply List.filter_congr
    intro y _
    simp [not_or]

theorem firstOccurrences_filter (p : α → Bool) (xs : List α) :
    firstOccurrences (xs.filter p) = (firstOccurrences xs).filter p := by
  induction xs with
  | nil => rfl
  | cons x xs ih =>
    rw [firstOccurrences_cons]
    by_cases hx : p x = true
    · rw [List.filter_cons_of_pos hx, List.filter_cons_of_pos hx, firstOccurrences_cons, ih,
        List.filter_filter, List.filter_filter]
      congr 1
      apply List.filter_congr
      exact fun y _ => Bool.and_comm _ _
    · rw [List.filter_cons_of_neg hx, List.filter_cons_of_neg hx, ih, List.filter_filter]
      -- what passes `p` is another item than this one anyway
      apply List.filter_congr
      intro y _
      by_cases hy : p y = true
      · have hne : y ≠ x := fun h => hx (h ▸ hy)
        simp [hy, hne]
      · simp [hy]

/-- The library's way to strike out repeats keeps the first occurrences, too. -/
theorem firstOccurrences_eq_eraseDups : (xs : List α) → firstOccurrences xs = xs.eraseDups
  | [] => rfl
  | x :: xs => by
    -- the library strikes out an item before it goes on, and not after
    have hrest : (xs.filter fun y => !y == x) = xs.filter (· ≠ x) := by
      apply List.filter_congr
      intro y _
      rw [decide_not, beq_eq_decide]
    rw [firstOccurrences_cons, ← firstOccurrences_filter, List.eraseDups_cons, hrest,
      firstOccurrences_eq_eraseDups]
termination_by xs => xs.length
decreasing_by exact Nat.lt_succ_of_le (List.length_filter_le _ _)

/-- Items that were seen before change nothing, wherever they stand. -/
theorem firstOccurrences_insert {xs ys : List α} (hseen : ∀ y ∈ ys, y ∈ xs) (zs : List α) :
    firstOccurrences (xs ++ (ys ++ zs)) = firstOccurrences (xs ++ zs) := by
  have hnone : (firstOccurrences ys).filter (· ∉ xs) = [] := by
    rw [List.filter_eq_nil_iff]
    intro y hy
    simp [hseen y (mem_firstOccurrences.mp hy)]
  rw [firstOccurrences_append, firstOccurrences_append ys, List.filter_append, hnone,
    List.nil_append, List.filter_filter, firstOccurrences_append]
  congr 1
  apply List.filter_congr
  intro z _
  by_cases hz : z ∈ xs
  · simp [hz]
  · have hnew : z ∉ ys := fun h => hz (hseen z h)
    simp [hz, hnew]

/-! ## The order of the list -/

/-- Items are listed in the order of their first occurrences. -/
theorem pairwise_idxOf_firstOccurrences (xs : List α) :
    (firstOccurrences xs).Pairwise fun x y => xs.idxOf x < xs.idxOf y := by
  induction xs with
  | nil => exact List.Pairwise.nil
  | cons x xs ih =>
    have hother : ∀ y ∈ (firstOccurrences xs).filter (· ≠ x),
        (x :: xs).idxOf y = xs.idxOf y + 1 := by
      intro y hy
      have hne : y ≠ x := of_decide_eq_true (List.mem_filter.mp hy).2
      exact List.idxOf_cons_ne xs hne.symm
    rw [firstOccurrences_cons, List.pairwise_cons]
    constructor
    · intro y hy
      rw [hother y hy, List.idxOf_cons_self]
      exact Nat.succ_pos _
    · apply (ih.filter _).imp_of_mem
      intro y z hy hz hlt
      rw [hother y hy, hother z hz]
      exact Nat.succ_lt_succ hlt

end

end RiskGate

import RiskGate.Proofs.Listing
import RiskGate.Proofs.Text.Bytes

/-! # Listings in normal form

A listing depends on the items listed and on nothing else: on their first occurrences where it keeps
them in place, and on the set of them where it sorts.

* `KeepsFirst` and `eq_firstOccurrences_iff`: what listing by first occurrence is, without the way
  in which it is done;
* `normalized_eq_destutter`: in a sorted list all repeats of a text stand next to each other;
* `pairwise_lt_normalized`, `normalized_eq_normalized_iff`: a sorted listing ascends, and is the
  same for all lists of the same texts;
* `listings_canonical`: both kinds of listings.
-/

namespace RiskGate

/-! ## First occurrences -/

section

variable {α : Type} [DecidableEq α]

/-- A listing without repeats has one item before another exactly if it is first seen before it. An
item that is not in a list counts as coming after all of them. -/
structure KeepsFirst (xs listed : List α) : Prop where
  nodup : listed.Nodup
  sublist : listed.Sublist xs
  mem_iff : ∀ x, x ∈ listed ↔ x ∈ xs
  precedes_iff : ∀ x y, listed.idxOf x < listed.idxOf y ↔ xs.idxOf x < xs.idxOf y

/-- Of two lists of the same items one may have repeats. If its first occurrences ascend along the
other list, both have the items in the same order. -/
theorem idxOf_lt_idxOf_iff {xs listed : List α} (hmem : ∀ x, x ∈ listed ↔ x ∈ xs)
    (hpair : listed.Pairwise fun x y => xs.idxOf x < xs.idxOf y) (x y : α) :
    listed.idxOf x < listed.idxOf y ↔ xs.idxOf x < xs.idxOf y := by
  have hforward : ∀ {a b}, a ∈ listed → b ∈ listed → listed.idxOf a < listed.idxOf b →
      xs.idxOf a < xs.idxOf b := by
    intro a b ha hb hlt
    have hboth := List.pairwise_iff_getElem.mp hpair _ _ (List.idxOf_lt_length_of_mem ha)
      (List.idxOf_lt_length_of_mem hb) hlt
    rwa [List.getElem_idxOf, List.getElem_idxOf] at hboth
  by_cases hx : x ∈ listed
  · by_cases hy : y ∈ listed
    · refine ⟨hforward hx hy, fun hlt => ?_⟩
      rcases Nat.lt_trichotomy (listed.idxOf x) (listed.idxOf y) with h | h | h
      · exact h
      · rw [(List.idxOf_inj hx).mp h] at hlt
        exact absurd hlt (Nat.lt_irrefl _)
      · exact absurd (hforward hy hx h) (Nat.lt_asymm hlt)
    · -- what is not listed comes after what is, in both lists
      have hy' : y ∉ xs := fun h => hy ((hmem y).mpr h)
      rw [List.idxOf_of_notMem hy, List.idxOf_of_notMem hy', List.idxOf_lt_length_iff,
        List.idxOf_lt_length_iff, hmem]
  · have hx' : x ∉ xs := fun h => hx ((hmem x).mpr h)
    rw [List.idxOf_of_notMem hx, List.idxOf_of_notMem hx']
    exact iff_of_false (Nat.not_lt.mpr List.idxOf_le_length) (Nat.not_lt.mpr List.idxOf_le_length)

theorem keepsFirst_firstOccurrences (xs : List α) : KeepsFirst xs (firstOccurrences xs) where
  nodup := nodup_firstOccurrences xs
  sublist := firstOccurrences_sublist xs
  mem_iff _ := mem_firstOccurrences
  precedes_iff :=
    idxOf_lt_idxOf_iff (fun _ => mem_firstOccurrences) (pairwise_idxOf_firstOccurrences xs)

/-- A listing that keeps first occurrences ascends by them. -/
theorem KeepsFirst.pairwise {xs listed : List α} (h : KeepsFirst xs listed) :
    listed.Pairwise fun x y => xs.idxOf x < xs.idxOf y := by
  have hown := pairwise_idxOf_firstOccurrences listed
  rw [firstOccurrences_of_nodup h.nodup] at hown
  exact hown.imp fun {x y} => (h.precedes_iff x y).mp

/-- There is one listing that keeps first occurrences. -/
theorem eq_firstOccurrences_iff {xs listed : List α} :
    listed = firstOccurrences xs ↔ KeepsFirst xs listed := by
  constructor
  · rintro rfl
    exact keepsFirst_firstOccurrences xs
  · intro h
    have hirrefl : Std.Irrefl fun x y => xs.idxOf x < xs.idxOf y := ⟨fun _ => Nat.lt_irrefl _⟩
    have hantisymm : Std.Antisymm fun x y => xs.idxOf x < xs.idxOf y :=
      ⟨fun _ _ hxy hyx => absurd hxy (Nat.lt_asymm hyx)⟩
    exact h.pairwise.eq_of_mem_iff (pairwise_idxOf_firstOccurrences xs)
      fun x => (h.mem_iff x).trans mem_firstOccurrences.symm

theorem firstOccurrences_idem (xs : List α) :
    firstOccurrences (firstOccurrences xs) = firstOccurrences xs :=
  firstOccurrences_of_nodup (nodup_firstOccurrences xs)

end

/-! ## Sorted texts -/

/-- A sorted list that loses its repeats ascends. -/
theorem pairwise_lt_of_pairwise_le {texts : List String} (hsorted : texts.Pairwise (· ≤ ·))
    (hnodup : texts.Nodup) : texts.Pairwise (· < ·) :=
  hsorted.imp₂ (fun _ _ hle hne => lt_of_le_of_ne hle hne) hnodup

/-- In a sorted list repeats stand next to each other, so it is enough to compare neighbours. -/
theorem firstOccurrences_eq_destutter {texts : List String} (hsorted : texts.Pairwise (· ≤ ·)) :
    firstOccurrences texts = texts.destutter (· ≠ ·) := by
  have hfirst := pairwise_lt_of_pairwise_le (hsorted.sublist (firstOccurrences_sublist texts))
    (nodup_firstOccurrences texts)
  have hlast := pairwise_lt_of_pairwise_le (hsorted.sublist (List.dedup_sublist texts))
    (List.nodup_dedup texts)
  rw [hsorted.destutter_eq_dedup]
  exact hfirst.eq_of_mem_iff hlast fun t => mem_firstOccurrences.trans List.mem_dedup.symm

theorem pairwise_le_mergeSort (texts : List String) :
    (texts.mergeSort fun a b => a ≤ b).Pairwise (· ≤ ·) := by
  have htrans : ∀ a b c : String, decide (a ≤ b) = true → decide (b ≤ c) = true →
      decide (a ≤ c) = true := fun a b c hab hbc =>
    decide_eq_true (le_trans (of_decide_eq_true hab) (of_decide_eq_true hbc))
  have htotal : ∀ a b : String, (decide (a ≤ b) || decide (b ≤ a)) = true := fun a b => by
    simpa using le_total a b
  exact (List.pairwise_mergeSort htrans htotal texts).imp of_decide_eq_true

theorem normalized_eq_destutter (texts : List String) :
    normalized texts = (texts.mergeSort fun a b => a ≤ b).destutter (· ≠ ·) :=
  firstOccurrences_eq_destutter (pairwise_le_mergeSort texts)

theorem mem_normalized {t : String} {texts : List String} : t ∈ normalized texts ↔ t ∈ texts := by
  rw [normalized, mem_firstOccurrences, List.mem_mergeSort]

theorem pairwise_lt_normalized (texts : List String) : (normalized texts).Pairwise (· < ·) :=
  pairwise_lt_of_pairwise_le ((pairwise_le_mergeSort texts).sublist (firstOccurrences_sublist _))
    (nodup_firstOccurrences _)

/-- Neither the order of the texts nor their repeats show. -/
theorem normalized_eq_normalized_iff {texts texts' : List String} :
    normalized texts = normalized texts' ↔ ∀ t, t ∈ texts ↔ t ∈ texts' := by
  constructor
  · intro h t
    rw [← mem_normalized, h, mem_normalized]
  · intro h
    refine (pairwise_lt_normalized texts).eq_of_mem_iff (pairwise_lt_normalized texts') ?_
    intro t
    rw [mem_normalized, mem_normalized, h]

/-- Listing by first occurrence keeps exactly these, can be done twice, and lists of later items
what earlier ones lack. Sorted texts lose all repeats when each is compared with its neighbour; they
then ascend by their bytes, and are the same for all lists of the same texts. -/
theorem listings_canonical :
    (∀ {α : Type} [DecidableEq α] (xs : List α),
      (∀ listed, listed = firstOccurrences xs ↔ KeepsFirst xs listed) ∧
      firstOccurrences (firstOccurrences xs) = firstOccurrences xs ∧
      ∀ ys, firstOccurrences (xs ++ ys) =
        firstOccurrences xs ++ (firstOccurrences ys).filter (· ∉ xs)) ∧
    ∀ texts : List String,
      normalized texts = (texts.mergeSort fun a b => a ≤ b).destutter (· ≠ ·) ∧
      (normalized texts).Pairwise (fun a b => utf8 a < utf8 b) ∧
      (∀ t, t ∈ normalized texts ↔ t ∈ texts) ∧
      (∀ texts', normalized texts = normalized texts' ↔ ∀ t, t ∈ texts ↔ t ∈ texts') ∧
      normalized (normalized texts) = normalized texts := by
  constructor
  · intro α _ xs
    exact ⟨fun listed => eq_firstOccurrences_iff, firstOccurrences_idem xs,
      firstOccurrences_append xs⟩
  · intro texts
    refine ⟨normalized_eq_destutter texts, ?_, fun t => mem_normalized,
      fun texts' => normalized_eq_normalized_iff, ?_⟩
    · exact (pairwise_lt_normalized texts).imp utf8_lt_utf8
    · exact normalized_eq_normalized_iff.mpr fun t => mem_normalized

end RiskGate

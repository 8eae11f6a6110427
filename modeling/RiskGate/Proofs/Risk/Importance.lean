import RiskGate.Proofs.Binary64.Order
import RiskGate.Proofs.Text.Bytes
import RiskGate.Risk.Importance

/-! # The most important features

* `totalKey_lt_iff`: the key that features are sorted by is that of the total order of numbers;
* `filter_mergeSort`: sorting keeps what counts as equal in its order;
* `Importance.pairwise_outranks_mergeSort`: sorted by weight alone, features are in the order of
  weight and name;
* `Importance.top_heaviest`: the most important features are the first ones in that order.
-/

namespace RiskGate

/-! ## The total order -/

namespace Binary64

/-- Before in the total order of numbers, in which negative zero is just below zero. -/
def TotalLt (x y : Binary64) : Prop := x < y ∨ x = negZero ∧ y = zero

theorem totalKey_lt_iff {x y : Binary64} (hx : x ≠ .nan) (hy : y ≠ .nan) :
    x.totalKey < y.totalKey ↔ TotalLt x y := by
  cases x with
  | nan => exact absurd rfl hx
  | number s m hm =>
    cases y with
    | nan => exact absurd rfl hy
    | number t n hn =>
      cases s <;> cases t <;>
        simp [TotalLt, lt_iff, totalKey, place, orderKey, negZero, zero, ofMagnitude] <;> omega

theorem totalKey_inj {x y : Binary64} (hx : x ≠ .nan) (hy : y ≠ .nan) :
    x.totalKey = y.totalKey ↔ x = y := by
  cases x with
  | nan => exact absurd rfl hx
  | number s m hm =>
    cases y with
    | nan => exact absurd rfl hy
    | number t n hn => cases s <;> cases t <;> simp [totalKey] <;> omega

end Binary64

/-! ## Sorting -/

/-- What counts as equal keeps its order. -/
theorem filter_mergeSort {α : Type} {le : α → α → Bool}
    (htrans : ∀ a b c, le a b → le b c → le a c) (htotal : ∀ a b, le a b || le b a)
    {p : α → Bool} (hequal : ∀ a b, p a → p b → le a b) (xs : List α) :
    (xs.mergeSort le).filter p = xs.filter p := by
  have hpairwise : (xs.filter p).Pairwise (le · ·) := by
    apply List.pairwise_of_forall_mem_list
    intro a ha b hb
    exact hequal a b (List.mem_filter.mp ha).2 (List.mem_filter.mp hb).2
  have hsublist : (xs.filter p).Sublist ((xs.mergeSort le).filter p) := by
    have hstable := List.sublist_mergeSort htrans htotal hpairwise List.filter_sublist
    simpa only [List.filter_filter, Bool.and_self] using hstable.filter p
  have hlength : ((xs.mergeSort le).filter p).length = (xs.filter p).length :=
    ((List.mergeSort_perm xs le).filter p).length_eq
  exact (hsublist.eq_of_length hlength.symm).symm

namespace Importance

/-- Heavier than another feature, or as heavy and earlier by the bytes of the name. -/
def Outranks (feature other : String × Binary64) : Prop :=
  Binary64.TotalLt other.2 feature.2 ∨
    feature.2 = other.2 ∧ utf8 feature.1 < utf8 other.1

/-- The comparison that features are sorted by. It does not look at their names. -/
def noLighter (feature other : String × Binary64) : Bool := other.2.totalKey ≤ feature.2.totalKey

theorem noLighter_trans (a b c : String × Binary64) (hab : noLighter a b) (hbc : noLighter b c) :
    noLighter a c :=
  decide_eq_true (Int.le_trans (of_decide_eq_true hbc) (of_decide_eq_true hab))

theorem noLighter_total (a b : String × Binary64) : noLighter a b || noLighter b a := by
  rw [Bool.or_eq_true, noLighter, noLighter, decide_eq_true_iff, decide_eq_true_iff]
  exact Int.le_total _ _

/-- Numbers in the order of their names come to stand in the order of weight and name. -/
theorem pairwise_outranks_mergeSort {features : List (String × Binary64)}
    (hnames : features.Pairwise fun a b => a.1 < b.1)
    (hnumbers : ∀ feature ∈ features, feature.2 ≠ .nan) :
    (features.mergeSort noLighter).Pairwise Outranks := by
  rw [List.pairwise_iff_forall_sublist]
  intro a b hab
  have hsorted : noLighter a b := List.pairwise_iff_forall_sublist.mp
    (List.pairwise_mergeSort noLighter_trans noLighter_total features) hab
  have ha : a.2 ≠ .nan := hnumbers a (List.mem_mergeSort.mp (hab.subset (by simp)))
  have hb : b.2 ≠ .nan := hnumbers b (List.mem_mergeSort.mp (hab.subset (by simp)))
  rcases Int.lt_or_eq_of_le (of_decide_eq_true hsorted) with hlighter | hequal
  · exact .inl ((Binary64.totalKey_lt_iff hb ha).mp hlighter)
  · -- those of this weight stand as they stood before, in the order of their names
    let p : String × Binary64 → Bool := fun feature => feature.2.totalKey = a.2.totalKey
    have hkept : (features.mergeSort noLighter).filter p = features.filter p := by
      apply filter_mergeSort noLighter_trans noLighter_total
      intro c d hc hd
      exact decide_eq_true ((of_decide_eq_true hd).trans (of_decide_eq_true hc).symm).le
    have hboth : [a, b].filter p = [a, b] := by
      simp [p, hequal]
    have hbefore : [a, b].Sublist (features.filter p) := by
      rw [← hboth, ← hkept]
      exact hab.filter p
    have hname := List.pairwise_iff_forall_sublist.mp (hnames.filter p) hbefore
    exact .inr ⟨((Binary64.totalKey_inj hb ha).mp hequal).symm, utf8_lt_utf8_iff.mpr hname⟩

/-! ## The most important features -/

/-- The features with more than a given weight, as they are sorted. -/
def ranked (importance : Importance) (minWeight : Binary64) : List (String × Binary64) :=
  (importance.filter fun _ weight => minWeight < weight).toList.mergeSort noLighter

variable {importance : Importance} {minWeight : Binary64}

theorem top_eq_take (limit : Nat) :
    importance.top limit minWeight = (importance.ranked minWeight).take limit := by
  rw [top, ranked, Std.ExtTreeMap.toList_filter]
  rfl

theorem length_ranked : (importance.ranked minWeight).length =
    (importance.filter fun _ weight => minWeight < weight).size := by
  rw [ranked, List.length_mergeSort, Std.ExtTreeMap.length_toList]

theorem mem_ranked {name : String} {weight : Binary64} :
    (name, weight) ∈ importance.ranked minWeight ↔
      importance[name]? = some weight ∧ minWeight < weight := by
  rw [ranked, List.mem_mergeSort, Std.ExtTreeMap.toList_filter, List.mem_filter,
    Std.ExtTreeMap.mem_toList_iff_getElem?_eq_some, decide_eq_true_iff]

theorem pairwise_outranks_ranked : (importance.ranked minWeight).Pairwise Outranks := by
  apply pairwise_outranks_mergeSort
  · apply Std.ExtTreeMap.ordered_keys_toList.imp
    exact fun h => compareOfLessAndEq_eq_lt.mp h
  · intro feature hfeature
    have hweight := (mem_ranked.mp (List.mem_mergeSort.mpr hfeature)).2
    exact (Binary64.lt_iff.mp hweight).2.1

theorem nodup_names_ranked : ((importance.ranked minWeight).map (·.1)).Nodup := by
  have hkeys :=
    Std.ExtTreeMap.nodup_keys (t := importance.filter fun _ weight => minWeight < weight)
  rw [← Std.ExtTreeMap.map_fst_toList_eq_keys] at hkeys
  exact ((List.mergeSort_perm _ _).map _).nodup_iff.mpr hkeys

/-- The most important features are as many as there are with more than the given weight, up to the
limit. Each is such a feature with the weight that it has, none comes twice, and they are in the
order of weight and name. Features that would do as well and are left out come after all of them. -/
theorem top_heaviest (importance : Importance) (limit : Nat) (minWeight : Binary64) :
    let top := importance.top limit minWeight
    top.length = min limit (importance.filter fun _ weight => minWeight < weight).size ∧
    (∀ name weight, (name, weight) ∈ top →
      importance[name]? = some weight ∧ minWeight < weight) ∧
    (top.map (·.1)).Nodup ∧
    top.Pairwise Outranks ∧
    ∀ name weight, importance[name]? = some weight → minWeight < weight →
      (name, weight) ∉ top → ∀ feature ∈ top, Outranks feature (name, weight) := by
  intro top
  have htop : top = (importance.ranked minWeight).take limit := top_eq_take limit
  rw [htop]
  refine ⟨?_, ?_, ?_, ?_, ?_⟩
  · rw [List.length_take, length_ranked]
  · exact fun name weight h => mem_ranked.mp (List.mem_of_mem_take h)
  · rw [List.map_take]
    exact nodup_names_ranked.sublist (List.take_sublist _ _)
  · exact pairwise_outranks_ranked.sublist (List.take_sublist _ _)
  · intro name weight hgiven hweight hleft feature hfeature
    -- what is left out stands behind the limit
    have hranked := mem_ranked.mpr ⟨hgiven, hweight⟩
    have hordered : (importance.ranked minWeight).Pairwise Outranks := pairwise_outranks_ranked
    rw [← List.take_append_drop limit (importance.ranked minWeight)] at hranked hordered
    have hbehind := (List.mem_append.mp hranked).resolve_left hleft
    exact (List.pairwise_append.mp hordered).2.2 _ hfeature _ hbehind

/-- Equal weights stand in the order of the names, negative zero is lighter than zero, and what is
not a number has no place at all. -/
theorem top_heaviest_tied :
    let importance : Importance := ofPairs [("loops", 0.2), ("noise", .nan), ("age", .zero),
      ("calls", 0.2), ("debt", .negZero)]
    let top := importance.top 3 (-1)
    (importance["debt"]? = some .negZero ∧ -1 < Binary64.negZero ∧ ("debt", .negZero) ∉ top) ∧
      top = [("calls", 0.2), ("loops", 0.2), ("age", .zero)] ∧
      ∀ feature ∈ top, Outranks feature ("debt", .negZero) := by
  intro importance top
  let age : String × Binary64 := ("age", .zero)
  let calls : String × Binary64 := ("calls", 0.2)
  let debt : String × Binary64 := ("debt", .negZero)
  let loops : String × Binary64 := ("loops", 0.2)
  have hgiven : importance["debt"]? = some .negZero ∧ -1 < Binary64.negZero ∧
      importance.toList.filter (fun feature => -1 < feature.2) = [age, calls, debt, loops] ∧
      debt ∉ [calls, loops, age] := by
    decide +kernel
  rcases hgiven with ⟨hdebt, hweight, hfeatures, hleft⟩
  have hvalue : top = [calls, loops, age] := by
    have hsorted : top = ([age, calls, debt, loops].mergeSort noLighter).take 3 := by
      rw [← hfeatures]
      rfl
    have hcompare : noLighter age calls = false ∧ noLighter age debt = true ∧
        noLighter age loops = false ∧ noLighter calls loops = true ∧
        noLighter debt loops = false := by
      decide +kernel
    rw [hsorted]
    -- only the comparisons count, and the sort is followed through them
    generalize age = a, calls = b, debt = c, loops = d at hcompare
    rcases hcompare with ⟨hab, hac, had, hbd, hcd⟩
    simp [List.mergeSort, List.MergeSort.Internal.splitInTwo, hab, hac, had, hbd, hcd]
  rw [← hvalue] at hleft
  rcases top_heaviest importance 3 (-1) with ⟨-, -, -, -, hbehind⟩
  exact ⟨⟨hdebt, hweight, hleft⟩, hvalue, hbehind _ _ hdebt hweight hleft⟩

end Importance

end RiskGate

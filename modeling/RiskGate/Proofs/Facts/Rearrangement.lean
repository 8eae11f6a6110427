import Mathlib
import RiskGate.Facts.Basic

/-! # Rearranged facts

The facts about a unit in another order: contracts, the functions of a contract, modifiers and reads
of special variables. Call sites and state writes keep theirs, which says what happens first.

* `PermUpTo`, lists of related items in any order, and what maps and filters make of them;
* `ContractFunction.Rearranges` and `Contract.Rearranges`, functions and contracts that differ in
  the order of what they list.
-/

namespace RiskGate

/-! ## Lists up to order -/

/-- After a permutation of the first list its items are related to those of the second one by one.
-/
def PermUpTo {α : Type} (r : α → α → Prop) (xs ys : List α) : Prop :=
  ∃ zs, xs.Perm zs ∧ List.Forall₂ r zs ys

namespace PermUpTo

variable {α β : Type} {r : α → α → Prop} {xs ys : List α}

theorem of_perm (h : xs.Perm ys) (hr : ∀ x, r x x) : PermUpTo r xs ys :=
  ⟨ys, h, List.forall₂_same.mpr fun x _ => hr x⟩

/-- Maps that agree on related items give the same values. -/
theorem map {f g : α → β} (h : PermUpTo r xs ys) (hfg : ∀ x y, r x y → f x = g y) :
    (xs.map f).Perm (ys.map g) := by
  rcases h with ⟨zs, hperm, hrelated⟩
  have hsame : List.Forall₂ (· = ·) (zs.map f) (ys.map g) := by
    rw [List.forall₂_map_left_iff, List.forall₂_map_right_iff]
    exact hrelated.imp hfg
  rw [List.forall₂_eq_eq_eq] at hsame
  rw [← hsame]
  exact hperm.map f

/-- Where related items give the same values in some order, so do the lists. -/
theorem flatMap {f g : α → List β} (h : PermUpTo r xs ys)
    (hfg : ∀ x y, r x y → (f x).Perm (g y)) : (xs.flatMap f).Perm (ys.flatMap g) := by
  rcases h with ⟨zs, hperm, hrelated⟩
  have hjoined : (zs.flatMap f).Perm (ys.flatMap g) := by
    rw [List.flatMap_def, List.flatMap_def]
    apply List.Perm.flatten_congr
    rw [List.forall₂_map_left_iff, List.forall₂_map_right_iff]
    exact hrelated.imp hfg
  exact (hperm.flatMap_right f).trans hjoined

theorem filter {p : α → Bool} (h : PermUpTo r xs ys) (hp : ∀ x y, r x y → p x = p y) :
    PermUpTo r (xs.filter p) (ys.filter p) := by
  rcases h with ⟨zs, hperm, hrelated⟩
  refine ⟨zs.filter p, hperm.filter p, ?_⟩
  apply List.rel_filter _ hrelated
  intro x y hxy
  show p x = true ↔ p y = true
  rw [hp x y hxy]

/-- What holds of related items alike holds of all of the one list if of all of the other. -/
theorem forall_iff {p : α → Prop} (h : PermUpTo r xs ys) (hp : ∀ x y, r x y → (p x ↔ p y)) :
    (∀ x ∈ xs, p x) ↔ ∀ y ∈ ys, p y := by
  rcases h with ⟨zs, hperm, hrelated⟩
  have hone : (∀ z ∈ zs, p z) ↔ ∀ y ∈ ys, p y := by
    clear hperm
    induction hrelated with
    | nil => simp
    | cons hxy _ ih => rw [List.forall_mem_cons, List.forall_mem_cons, hp _ _ hxy, ih]
  rw [← hone]
  exact forall_congr' fun x => by rw [hperm.mem_iff]

end PermUpTo

/-! ## Functions and contracts -/

/-- The functions list the same modifiers and reads in some order, and agree in everything else. -/
structure ContractFunction.Rearranges (f f' : ContractFunction) : Prop where
  id : f.id = f'.id
  visibility : f.visibility = f'.visibility
  isConstructor : f.isConstructor = f'.isConstructor
  isFallback : f.isFallback = f'.isFallback
  isReceive : f.isReceive = f'.isReceive
  callSites : f.callSites = f'.callSites
  stateWrites : f.stateWrites = f'.stateWrites
  modifiers : f.modifiers.Perm f'.modifiers
  specialReads : f.specialReads.Perm f'.specialReads

theorem ContractFunction.rearranges_self (f : ContractFunction) : f.Rearranges f :=
  ⟨rfl, rfl, rfl, rfl, rfl, rfl, rfl, List.Perm.refl _, List.Perm.refl _⟩

/-- The contracts list the same modifiers and, up to rearrangement, the same functions in some
order, and agree in everything else. -/
structure Contract.Rearranges (c c' : Contract) : Prop where
  id : c.id = c'.id
  kind : c.kind = c'.kind
  functions : PermUpTo ContractFunction.Rearranges c.functions c'.functions
  modifiers : c.modifiers.Perm c'.modifiers

theorem Contract.rearranges_self (c : Contract) : c.Rearranges c where
  id := rfl
  kind := rfl
  functions := .of_perm (List.Perm.refl _) ContractFunction.rearranges_self
  modifiers := List.Perm.refl _

namespace Contract.Rearranges

theorem nodeName {c c' : Contract} {f f' : ContractFunction} (h : c.Rearranges c')
    (hf : f.Rearranges f') : c.nodeName f = c'.nodeName f' := by
  rw [Contract.nodeName, Contract.nodeName, h.id, hf.id]

/-- The modifiers of a contract and of its functions, taken together. -/
theorem allModifiers {c c' : Contract} (h : c.Rearranges c') :
    (c.modifiers ++ c.functions.flatMap (·.modifiers)).Perm
      (c'.modifiers ++ c'.functions.flatMap (·.modifiers)) :=
  h.modifiers.append (h.functions.flatMap fun _ _ hf => hf.modifiers)

end Contract.Rearranges

/-- Rearranging a unit rearranges its concrete contracts. -/
theorem permUpTo_concrete {contracts contracts' : List Contract}
    (h : PermUpTo Contract.Rearranges contracts contracts') :
    PermUpTo Contract.Rearranges (concrete contracts) (concrete contracts') := by
  apply h.filter
  intro c c' hc
  rw [Contract.isConcrete, Contract.isConcrete, hc.kind]

end RiskGate

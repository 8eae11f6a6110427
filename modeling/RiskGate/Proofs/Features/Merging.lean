import RiskGate.Features.Extraction
import RiskGate.Proofs.Count

/-! # Merging feature vectors

Extraction goes through functions and contracts with one vector and adds to it. What a step adds
does not depend on the vector that it is added to, so extraction is a sum.

* `merge`, the sum of two vectors: counts add up, a flag is set if it is set in either;
* `Adds`, the steps that merge something of their own into the vector, closed under composition and
  folds;
* `adds_addContract`: scanning a contract is such a step;
* `Ungraphed`, the vectors without anything from a call graph, which scanning leads to;
* `staticFeatures_eq`: the static features are those of the contracts merged, unless a contract has
  a defect;
* `Extraction.ofContracts_eq`: an extraction is the static features, completed by the call graph.
-/

namespace RiskGate

namespace FeatureVector

/-- The sum of two vectors. -/
def merge (v w : FeatureVector) : FeatureVector where
  externalCallCount := v.externalCallCount + w.externalCallCount
  delegatecallCount := v.delegatecallCount + w.delegatecallCount
  sendTransferCount := v.sendTransferCount + w.sendTransferCount
  stateWritesBeforeCall := v.stateWritesBeforeCall + w.stateWritesBeforeCall
  stateWritesAfterCall := v.stateWritesAfterCall + w.stateWritesAfterCall
  publicFunctionCount := v.publicFunctionCount + w.publicFunctionCount
  externalFunctionCount := v.externalFunctionCount + w.externalFunctionCount
  privateFunctionCount := v.privateFunctionCount + w.privateFunctionCount
  hasAccessControlModifier := v.hasAccessControlModifier || w.hasAccessControlModifier
  hasReentrancyGuard := v.hasReentrancyGuard || w.hasReentrancyGuard
  usesTxOrigin := v.usesTxOrigin || w.usesTxOrigin
  hasSelfdestruct := v.hasSelfdestruct || w.hasSelfdestruct
  uncheckedCallCount := v.uncheckedCallCount + w.uncheckedCallCount
  maxCallDepth := v.maxCallDepth + w.maxCallDepth
  hasCycleWithExternalCall := v.hasCycleWithExternalCall || w.hasCycleWithExternalCall
  externalCallsInCycles := v.externalCallsInCycles + w.externalCallsInCycles

theorem merge_assoc (u v w : FeatureVector) : (u.merge v).merge w = u.merge (v.merge w) := by
  simp only [merge, Count.add_assoc, Bool.or_assoc]

theorem merge_comm (v w : FeatureVector) : v.merge w = w.merge v := by
  simp only [merge, Count.add_comm, Bool.or_comm]

instance : Std.Associative merge := ⟨merge_assoc⟩
instance : Std.Commutative merge := ⟨merge_comm⟩

@[simp] theorem merge_empty (v : FeatureVector) : v.merge {} = v := by
  simp only [merge, Count.add_zero, Bool.or_false]

@[simp] theorem empty_merge (v : FeatureVector) : merge {} v = v := by
  simp only [merge, Count.zero_add, Bool.false_or]

/-! ## Steps that add to a vector -/

/-- What the step adds is the same for every vector. -/
def Adds (step : FeatureVector → FeatureVector) : Prop := ∀ v, step v = v.merge (step {})

theorem adds_id : Adds id := by
  intro v
  simp only [id, merge_empty]

theorem Adds.comp {first second : FeatureVector → FeatureVector} (h₂ : Adds second)
    (h₁ : Adds first) : Adds fun v => second (first v) := by
  intro v
  calc second (first v)
      = (v.merge (first {})).merge (second {}) := by rw [h₂ (first v), h₁ v]
    _ = v.merge ((first {}).merge (second {})) := merge_assoc _ _ _
    _ = v.merge (second (first {})) := by rw [← h₂ (first {})]

theorem Adds.ite {step : FeatureVector → FeatureVector} (skip : Bool) (h : Adds step) :
    Adds fun v => if skip then v else step v := by
  cases skip with
  | true => exact adds_id
  | false => exact h

theorem Adds.foldl {α : Type} {step : FeatureVector → α → FeatureVector} {items : List α}
    (h : ∀ item ∈ items, Adds (step · item)) : Adds fun v => items.foldl step v := by
  induction items with
  | nil => exact adds_id
  | cons item items ih =>
      have hrest := ih fun other hother => h other (List.mem_cons_of_mem _ hother)
      exact hrest.comp (h item List.mem_cons_self)

/-- Adding item after item is merging what each of them adds to nothing. -/
theorem foldl_eq_merge {α : Type} {step : FeatureVector → α → FeatureVector}
    (h : ∀ item, Adds (step · item)) (items : List α) (v : FeatureVector) :
    items.foldl step v = (items.map (step {})).foldl merge v := by
  rw [List.foldl_map]
  congr
  funext v item
  exact h item v

/-! ## Scanning functions and contracts -/

theorem adds_addCalls (f : ContractFunction) : Adds (addCalls · f) := by
  intro v
  simp [addCalls, merge]

theorem adds_addWrites (f : ContractFunction) : Adds (addWrites · f) := by
  intro v
  simp [addWrites, merge]

theorem adds_addVisibility (f : ContractFunction) : Adds (addVisibility · f) := by
  intro v
  cases hvisibility : f.visibility with
  | publicly => simp [addVisibility, hvisibility, merge]
  | externally => simp [addVisibility, hvisibility, merge]
  | privately => simp [addVisibility, hvisibility, merge]
  | internally => simp [addVisibility, hvisibility]

theorem adds_addConstructs (f : ContractFunction) : Adds (addConstructs · f) := by
  intro v
  simp [addConstructs, merge]

theorem adds_addFunction (f : ContractFunction) : Adds (addFunction · f) := by
  have hcalls : Adds fun v => if f.exemptFromCallCounts then v else (v.addCalls f).addWrites f :=
    ((adds_addWrites f).comp (adds_addCalls f)).ite _
  have hvisibility : Adds fun v => if f.exemptFromVisibilityCounts then v else v.addVisibility f :=
    (adds_addVisibility f).ite _
  exact (adds_addConstructs f).comp (hvisibility.comp hcalls)

theorem adds_addModifier (name : String) : Adds (addModifier · name) := by
  intro v
  simp [addModifier, merge]

theorem adds_addContract (c : Contract) : Adds (addContract · c) :=
  (Adds.foldl fun name _ => adds_addModifier name).comp (Adds.foldl fun f _ => adds_addFunction f)

/-! ## What scanning leaves alone -/

/-- Nothing in the vector comes from a call graph. -/
structure Ungraphed (v : FeatureVector) : Prop where
  maxCallDepth : v.maxCallDepth = 0
  hasCycleWithExternalCall : v.hasCycleWithExternalCall = false
  externalCallsInCycles : v.externalCallsInCycles = 0

theorem ungraphed_empty : Ungraphed {} := ⟨rfl, rfl, rfl⟩

theorem Ungraphed.ite {v w : FeatureVector} (hv : v.Ungraphed) (hw : w.Ungraphed) (skip : Bool) :
    (if skip then v else w).Ungraphed := by
  cases skip with
  | true => exact hv
  | false => exact hw

theorem Ungraphed.addVisibility {v : FeatureVector} (h : v.Ungraphed) (f : ContractFunction) :
    (v.addVisibility f).Ungraphed := by
  unfold FeatureVector.addVisibility
  cases f.visibility with
  | publicly => exact ⟨h.1, h.2, h.3⟩
  | externally => exact ⟨h.1, h.2, h.3⟩
  | privately => exact ⟨h.1, h.2, h.3⟩
  | internally => exact h

theorem Ungraphed.addFunction {v : FeatureVector} (h : v.Ungraphed) (f : ContractFunction) :
    (v.addFunction f).Ungraphed := by
  have hwrites : ((v.addCalls f).addWrites f).Ungraphed := ⟨h.1, h.2, h.3⟩
  have hcalls := h.ite hwrites f.exemptFromCallCounts
  have hvisibility := hcalls.ite (hcalls.addVisibility f) f.exemptFromVisibilityCounts
  exact ⟨hvisibility.1, hvisibility.2, hvisibility.3⟩

theorem Ungraphed.addContract {v : FeatureVector} (h : v.Ungraphed) (c : Contract) :
    (v.addContract c).Ungraphed := by
  have hfunctions : (c.functions.foldl FeatureVector.addFunction v).Ungraphed :=
    List.foldlRecOn _ _ h fun w hw f _ => hw.addFunction f
  exact List.foldlRecOn _ _ hfunctions fun w hw name _ => ⟨hw.1, hw.2, hw.3⟩

end FeatureVector

/-! ## Compilation units -/

/-- Why a contract cannot be extracted, if it cannot. -/
def Contract.error? (c : Contract) : Option ExtractionError :=
  c.defect?.map fun defect => ⟨c.id, defect⟩

/-- What extraction asks of a function. -/
structure ContractFunction.Fit (f : ContractFunction) : Prop where
  named : f.id ≠ ""
  callSites : inOrder (f.callSites.map (·.position)) = true
  stateWrites : inOrder (f.stateWrites.map (·.position)) = true

/-- A function is fit or has a defect, whatever its index. -/
theorem ContractFunction.defect?_eq_none_iff {index : Nat} {f : ContractFunction} :
    f.defect? index = none ↔ f.Fit := by
  unfold ContractFunction.defect?
  constructor
  · intro h
    split_ifs at h with hname hcalls hwrites
    exact ⟨hname, by simpa using hcalls, by simpa using hwrites⟩
  · rintro ⟨hname, hcalls, hwrites⟩
    simp [hname, hcalls, hwrites]

theorem Contract.error?_eq_none_iff {c : Contract} :
    c.error? = none ↔ c.id ≠ "" ∧ ∀ f ∈ c.functions, f.Fit := by
  rw [Contract.error?, Option.map_eq_none_iff, Contract.defect?]
  by_cases hname : c.id = ""
  · simp [hname]
  · rw [if_neg hname, List.findSome?_eq_none_iff]
    constructor
    · intro h
      refine ⟨hname, ?_⟩
      intro f hf
      obtain ⟨index, hindex⟩ := List.mem_iff_getElem?.mp hf
      exact ContractFunction.defect?_eq_none_iff.mp
        (h (f, index) (List.mk_mem_zipIdx_iff_getElem?.mpr hindex))
    · rintro ⟨-, h⟩ ⟨f, index⟩ hmem
      exact ContractFunction.defect?_eq_none_iff.mpr (h f (List.fst_mem_of_mem_zipIdx hmem))

/-- The static features of a contract on its own. -/
def Contract.features (c : Contract) : FeatureVector := FeatureVector.addContract {} c

theorem Contract.check_eq (c : Contract) :
    c.check = match c.error? with
      | some e => .error e
      | none => .ok () := by
  unfold Contract.check Contract.error?
  cases c.defect? with
  | none => rfl
  | some defect => rfl

/-- The first contract that cannot be extracted decides; without one the contracts are merged. -/
theorem staticFeatures_eq (contracts : List Contract) :
    staticFeatures contracts = match (concrete contracts).findSome? Contract.error? with
      | some e => .error e
      | none =>
        .ok (((concrete contracts).map Contract.features).foldl FeatureVector.merge {}) := by
  have hfold : ∀ (cs : List Contract) (v : FeatureVector),
      cs.foldlM (fun v c => do c.check; return v.addContract c) v =
        match cs.findSome? Contract.error? with
        | some e => .error e
        | none => Except.ok (cs.foldl FeatureVector.addContract v) := by
    intro cs
    induction cs with
    | nil => exact fun v => rfl
    | cons c cs ih =>
        intro v
        rw [List.foldlM_cons, Contract.check_eq, List.findSome?_cons]
        cases c.error? with
        | some e => rfl
        | none => exact ih (v.addContract c)
  rw [staticFeatures, hfold, FeatureVector.foldl_eq_merge FeatureVector.adds_addContract]
  rfl

theorem staticFeatures_eq_ok_iff {contracts : List Contract} {v : FeatureVector} :
    staticFeatures contracts = .ok v ↔
      (∀ c ∈ concrete contracts, c.error? = none) ∧
        v = ((concrete contracts).map Contract.features).foldl FeatureVector.merge {} := by
  rw [staticFeatures_eq, ← List.findSome?_eq_none_iff]
  cases (concrete contracts).findSome? Contract.error? with
  | none => simp [eq_comm]
  | some e => simp

theorem ungraphed_of_staticFeatures {contracts : List Contract} {v : FeatureVector}
    (h : staticFeatures contracts = .ok v) : v.Ungraphed := by
  obtain ⟨-, rfl⟩ := staticFeatures_eq_ok_iff.mp h
  rw [show Contract.features = FeatureVector.addContract {} from rfl,
    ← FeatureVector.foldl_eq_merge FeatureVector.adds_addContract]
  exact List.foldlRecOn _ _ FeatureVector.ungraphed_empty fun w hw c _ => hw.addContract c

/-- The extraction of a unit with these static features, given the metrics of its call graph. -/
def Extraction.complete (v : FeatureVector) : Except LinkError CallGraph.Metrics → Extraction
  | .ok m => { features := v.withMetrics m, graph := some m, warnings := [] }
  | .error e =>
    { features := v, graph := none, warnings := ["call graph analysis failed: " ++ e.message] }

/-- The call graph completes an extraction, and decides nothing about its success. -/
theorem Extraction.ofContracts_eq (contracts : List Contract) :
    Extraction.ofContracts contracts =
      (staticFeatures contracts).map (complete · (CallGraph.Metrics.ofContracts contracts)) := by
  unfold Extraction.ofContracts
  cases staticFeatures contracts with
  | error e => rfl
  | ok v =>
      cases CallGraph.Metrics.ofContracts contracts with
      | error e => rfl
      | ok m => rfl

theorem Extraction.ofContracts_eq_ok_iff {contracts : List Contract} {x : Extraction} :
    Extraction.ofContracts contracts = .ok x ↔
      ∃ v, staticFeatures contracts = .ok v ∧
        x = complete v (CallGraph.Metrics.ofContracts contracts) := by
  rw [Extraction.ofContracts_eq]
  cases staticFeatures contracts with
  | error e => simp [Except.map]
  | ok v => simp [Except.map, eq_comm]

/-- An extraction fails with the error of the first contract that has one. -/
theorem Extraction.ofContracts_eq_error_iff {contracts : List Contract} {e : ExtractionError} :
    Extraction.ofContracts contracts = .error e ↔
      (concrete contracts).findSome? Contract.error? = some e := by
  rw [Extraction.ofContracts_eq, staticFeatures_eq]
  cases (concrete contracts).findSome? Contract.error? with
  | some cause => simp [Except.map]
  | none => simp [Except.map]

theorem Extraction.exists_eq_error_iff {contracts : List Contract} :
    (∃ e, Extraction.ofContracts contracts = .error e) ↔
      ∃ c ∈ concrete contracts, c.error? ≠ none := by
  simp only [Extraction.ofContracts_eq_error_iff, ← Option.isSome_iff_exists,
    ← Option.isSome_iff_ne_none, List.isSome_findSome?, List.any_eq_true]

/-- What the call graph of the contracts adds to their features; nothing if there is none. -/
def withGraph (contracts : List Contract) (v : FeatureVector) : FeatureVector :=
  match CallGraph.Metrics.ofContracts contracts with
  | .ok m => v.withMetrics m
  | .error _ => v

theorem FeatureVector.ofContracts_eq (contracts : List Contract) :
    FeatureVector.ofContracts contracts = (staticFeatures contracts).map (withGraph contracts) := by
  unfold FeatureVector.ofContracts Extraction.ofContracts withGraph
  cases staticFeatures contracts with
  | error e => rfl
  | ok v =>
      cases CallGraph.Metrics.ofContracts contracts with
      | error e => rfl
      | ok m => rfl

end RiskGate

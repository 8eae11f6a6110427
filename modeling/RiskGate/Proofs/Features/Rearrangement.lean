import RiskGate.Proofs.CallGraph.Canonical
import RiskGate.Proofs.CallGraph.Cycles
import RiskGate.Proofs.Features.Merging

/-! # Extraction and order

Extraction sees the concrete contracts of a unit and not the order in which they are listed.

* `Contract.Rearranges.features`: a contract has its static features in every order of its
  functions, modifiers and reads;
* `staticFeatures_of_rearranged`: merged vectors do not depend on the order of the contracts;
* `metrics_of_perm`: neither do the metrics of the call graph, since there is one graph;
* `Extraction.ofContracts_rearranged`: extraction as a whole.
-/

namespace RiskGate

/-! ## Static features -/

/-- Steps that add the same in another order lead to the same vector. -/
theorem FeatureVector.foldl_eq_of_perm {α : Type} {step : FeatureVector → α → FeatureVector}
    (h : ∀ item, Adds (step · item)) {items items' : List α}
    (hperm : (items.map (step {})).Perm (items'.map (step {}))) (v : FeatureVector) :
    items.foldl step v = items'.foldl step v := by
  rw [foldl_eq_merge h, foldl_eq_merge h]
  exact hperm.foldl_op_eq

theorem ContractFunction.Rearranges.addFunction {f f' : ContractFunction} (h : f.Rearranges f')
    (v : FeatureVector) : v.addFunction f = v.addFunction f' := by
  have hcalls : ∀ v : FeatureVector, v.addCalls f = v.addCalls f' := by
    intro v
    simp only [FeatureVector.addCalls, h.callSites]
  have hwrites : ∀ v : FeatureVector, v.addWrites f = v.addWrites f' := by
    intro v
    simp only [FeatureVector.addWrites, writesAroundInteraction, h.callSites, h.stateWrites]
  have hvisibility : ∀ v : FeatureVector, v.addVisibility f = v.addVisibility f' := by
    intro v
    simp only [FeatureVector.addVisibility, h.visibility]
  have hconstructs : ∀ v : FeatureVector, v.addConstructs f = v.addConstructs f' := by
    intro v
    simp only [FeatureVector.addConstructs, h.callSites, h.specialReads.any_eq]
  have hspecial : f.exemptFromCallCounts = f'.exemptFromCallCounts ∧
      f.exemptFromVisibilityCounts = f'.exemptFromVisibilityCounts := by
    simp only [exemptFromCallCounts, exemptFromVisibilityCounts, h.isConstructor, h.isFallback,
      h.isReceive, and_self]
  unfold FeatureVector.addFunction
  rw [hspecial.1, hspecial.2]
  simp only [hcalls, hwrites, hvisibility, hconstructs]

theorem ContractFunction.Rearranges.fit_iff {f f' : ContractFunction} (h : f.Rearranges f') :
    f.Fit ↔ f'.Fit := by
  have hdefect : f.defect? 0 = f'.defect? 0 := by
    simp only [defect?, h.id, h.callSites, h.stateWrites]
  rw [← @defect?_eq_none_iff 0, hdefect, defect?_eq_none_iff]

namespace Contract.Rearranges

variable {c c' : Contract}

theorem features (h : c.Rearranges c') : c.features = c'.features := by
  have hfunctions : c.functions.foldl FeatureVector.addFunction {} =
      c'.functions.foldl FeatureVector.addFunction {} := by
    apply FeatureVector.foldl_eq_of_perm FeatureVector.adds_addFunction
    exact h.functions.map fun f f' hf => hf.addFunction {}
  show (c.modifiers ++ c.functions.flatMap (·.modifiers)).foldl FeatureVector.addModifier
      (c.functions.foldl FeatureVector.addFunction {}) = c'.features
  rw [hfunctions]
  exact FeatureVector.foldl_eq_of_perm FeatureVector.adds_addModifier (h.allModifiers.map _) _

theorem error?_eq_none_iff (h : c.Rearranges c') : c.error? = none ↔ c'.error? = none := by
  rw [Contract.error?_eq_none_iff, Contract.error?_eq_none_iff, h.id]
  exact and_congr_right' (h.functions.forall_iff fun f f' hf => hf.fit_iff)

end Contract.Rearranges

section

variable {contracts contracts' : List Contract}
  (h : PermUpTo Contract.Rearranges (concrete contracts) (concrete contracts'))

include h

theorem staticFeatures_of_rearranged {v : FeatureVector} :
    staticFeatures contracts = .ok v ↔ staticFeatures contracts' = .ok v := by
  have hmerged : ((concrete contracts).map Contract.features).foldl FeatureVector.merge {} =
      ((concrete contracts').map Contract.features).foldl FeatureVector.merge {} := by
    have hperm : ((concrete contracts).map Contract.features).Perm
        ((concrete contracts').map Contract.features) := h.map fun c c' hc => hc.features
    exact hperm.foldl_op_eq
  rw [staticFeatures_eq_ok_iff, staticFeatures_eq_ok_iff, hmerged]
  exact and_congr_left' (h.forall_iff fun c c' hc => hc.error?_eq_none_iff)

end

/-! ## Metrics -/

namespace CallGraph

variable {contracts contracts' : List Contract}

theorem metrics_of_perm (h : (callSitesByName contracts).Perm (callSitesByName contracts'))
    {m : Metrics} (hm : Metrics.ofContracts contracts = .ok m) :
    Metrics.ofContracts contracts' = .ok m := by
  cases hg : ofContracts contracts with
  | error e =>
      rw [metrics_eq, hg] at hm
      cases hm
  | ok g =>
      rw [metrics_ofContracts (ofContracts_of_perm h hg)]
      rw [metrics_ofContracts hg] at hm
      exact hm

theorem metrics_of_concrete_eq (h : concrete contracts = concrete contracts') :
    Metrics.ofContracts contracts = Metrics.ofContracts contracts' := by
  have hgraph : ofContracts contracts = ofContracts contracts' := by
    simp only [ofContracts, resolvedCalls, declaredFunctions, h]
  rw [metrics_eq, metrics_eq, hgraph]

end CallGraph

/-! ## Extraction -/

namespace Extraction

/-- Extraction depends on the concrete contracts alone, and on success what it measures does not
depend on their order. Interfaces and libraries may come, go, change and move; of a failure the
order decides which error is reported, and of a missing call graph which call is blamed. -/
theorem ofContracts_rearranged :
    (∀ contracts contracts', concrete contracts = concrete contracts' →
      ofContracts contracts = ofContracts contracts') ∧
    ∀ contracts contracts', PermUpTo Contract.Rearranges contracts contracts' →
      ((∃ x, ofContracts contracts = .ok x) ↔ ∃ x', ofContracts contracts' = .ok x') ∧
      ∀ x x', ofContracts contracts = .ok x → ofContracts contracts' = .ok x' →
        x.features = x'.features ∧ x.graph = x'.graph := by
  constructor
  · intro contracts contracts' h
    rw [ofContracts_eq, ofContracts_eq, CallGraph.metrics_of_concrete_eq h, staticFeatures_eq,
      staticFeatures_eq, h]
  intro contracts contracts' h
  have hconcrete := permUpTo_concrete h
  have hsites := callSitesByName_perm hconcrete
  constructor
  · have hsuccess : ∀ contracts,
        (∃ x, ofContracts contracts = .ok x) ↔ ∃ v, staticFeatures contracts = .ok v := by
      intro contracts
      simp [ofContracts_eq_ok_iff]
    rw [hsuccess, hsuccess]
    exact exists_congr fun v => staticFeatures_of_rearranged hconcrete
  · intro x x' hx hx'
    rcases ofContracts_eq_ok_iff.mp hx with ⟨v, hv, rfl⟩
    rcases ofContracts_eq_ok_iff.mp hx' with ⟨v', hv', rfl⟩
    -- both runs end with one vector
    rw [staticFeatures_of_rearranged hconcrete, hv'] at hv
    injection hv with hvector
    rw [hvector]
    cases hm : CallGraph.Metrics.ofContracts contracts with
    | ok m =>
        rw [CallGraph.metrics_of_perm hsites hm]
        exact ⟨rfl, rfl⟩
    | error e =>
        cases hm' : CallGraph.Metrics.ofContracts contracts' with
        | ok m' =>
            rw [CallGraph.metrics_of_perm hsites.symm hm'] at hm
            cases hm
        | error e' => exact ⟨rfl, rfl⟩

/-- A function that closes the book it is in, with its modifiers and reads in some order. -/
def openBook (modifiers specialReads : List String) : ContractFunction where
  id := "open"
  visibility := .externally
  callSites := [
    { kind := .internal, name := "close", target := some ⟨"Book", "close"⟩, position := 1 }]
  modifiers := modifiers
  specialReads := specialReads

/-- A function that pays out and opens the book again. -/
def closeBook : ContractFunction where
  id := "close"
  visibility := .publicly
  callSites := [
    { kind := .send, name := "send", position := 1 },
    { kind := .internal, name := "open", target := some ⟨"Book", "open"⟩, position := 2 }]

/-- A till that opens the book. -/
def till : Contract where
  id := "Till"
  kind := .concrete
  functions := [
    { id := "ring"
      visibility := .externally
      callSites := [
        { kind := .external, name := "open", target := some ⟨"Book", "open"⟩, position := 1 }] }]

/-- A book, the interface of a till and the till. -/
def ledger : List Contract := [
  { id := "Book"
    kind := .concrete
    functions := [openBook ["onlyOwner", "lock"] ["tx.origin", "msg.sender"], closeBook]
    modifiers := ["onlyOwner", "lock"] },
  { id := "ITill", kind := .interface },
  till]

/-- The ledger listed backwards, contracts as well as what is in them. -/
def ledgerBackwards : List Contract := [
  till,
  { id := "ITill", kind := .interface },
  { id := "Book"
    kind := .concrete
    functions := [closeBook, openBook ["lock", "onlyOwner"] ["msg.sender", "tx.origin"]]
    modifiers := ["lock", "onlyOwner"] }]

theorem openBook_rearranges {modifiers modifiers' specialReads specialReads' : List String}
    (hmodifiers : modifiers.Perm modifiers') (hreads : specialReads.Perm specialReads') :
    (openBook modifiers specialReads).Rearranges (openBook modifiers' specialReads') :=
  ⟨rfl, rfl, rfl, rfl, rfl, rfl, rfl, hmodifiers, hreads⟩

theorem ledger_rearranges : PermUpTo Contract.Rearranges ledger ledgerBackwards := by
  refine ⟨ledger.reverse, (List.reverse_perm _).symm, ?_⟩
  refine .cons till.rearranges_self (.cons (Contract.rearranges_self _) (.cons ?_ .nil))
  refine ⟨rfl, rfl, ⟨_, List.Perm.swap _ _ _, ?_⟩, List.Perm.swap _ _ _⟩
  refine .cons closeBook.rearranges_self (.cons ?_ .nil)
  exact openBook_rearranges (List.Perm.swap _ _ _) (List.Perm.swap _ _ _)

theorem ofContracts_ledger :
    ∃ x x', ofContracts ledger = .ok x ∧ ofContracts ledgerBackwards = .ok x' ∧
      x.features = x'.features ∧ x.graph = x'.graph ∧
      x.features.usesTxOrigin = true ∧ x.features.externalCallsInCycles = 1 ∧
      ofContracts (ledger ++ [{ id := "", kind := .library }]) = .ok x := by
  obtain ⟨x, hx, hcheck⟩ := CallGraph.exists_ok_of_any (x := ofContracts ledger)
    (fun x => decide (x.features.usesTxOrigin = true ∧ x.features.externalCallsInCycles = 1))
    (by decide +kernel)
  rcases of_decide_eq_true hcheck with ⟨horigin, hcalls⟩
  rcases ofContracts_rearranged.2 ledger ledgerBackwards ledger_rearranges with ⟨hsuccess, hsame⟩
  rcases hsuccess.mp ⟨x, hx⟩ with ⟨x', hx'⟩
  rcases hsame x x' hx hx' with ⟨hfeatures, hgraph⟩
  have hlibrary : concrete ledger = concrete (ledger ++ [{ id := "", kind := .library }]) := rfl
  exact ⟨x, x', hx, hx', hfeatures, hgraph, horigin, hcalls,
    (ofContracts_rearranged.1 _ _ hlibrary).symm.trans hx⟩

end Extraction

end RiskGate

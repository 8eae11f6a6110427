import RiskGate.Proofs.Features.Batch

/-! # What each feature reads

The scan and the call graph go over the same facts and read different parts of them. What one of
them does not read is blanked out here without changing its result, so two units that differ in
nothing else have the same result.

* `Contract.withoutTargets`, the facts without the targets of calls, and
  `staticFeatures_withoutTargets`: the scan reads no more;
* `Contract.linkage`, who calls what and by which kind and name, and `metrics_linkage`: the call
  graph reads no more;
* `Extraction.ofContracts_footprint`: static features do not depend on targets, nor the call graph
  and its features on anything but the linkage.
-/

namespace RiskGate

/-- Changing contracts without changing their kinds keeps which of them are concrete. -/
theorem concrete_map {change : Contract → Contract} (hkind : ∀ c, (change c).kind = c.kind)
    (contracts : List Contract) :
    concrete (contracts.map change) = (concrete contracts).map change := by
  have hconcrete : (fun c : Contract => c.isConcrete) ∘ change = fun c => c.isConcrete := by
    funext c
    simp only [Function.comp_apply, Contract.isConcrete, hkind]
  rw [concrete, List.filter_map, hconcrete, concrete]

/-! ## Without targets -/

/-- The call with its target forgotten. -/
def CallSite.withoutTarget (site : CallSite) : CallSite := { site with target := none }

/-- The function with the targets of its calls forgotten. -/
def ContractFunction.withoutTargets (f : ContractFunction) : ContractFunction :=
  { f with callSites := f.callSites.map CallSite.withoutTarget }

/-- The contract with the targets of all calls forgotten. -/
def Contract.withoutTargets (c : Contract) : Contract :=
  { c with functions := c.functions.map ContractFunction.withoutTargets }

theorem ContractFunction.defect?_withoutTargets (index : Nat) (f : ContractFunction) :
    f.withoutTargets.defect? index = f.defect? index := by
  have hpositions : f.withoutTargets.callSites.map (·.position) =
      f.callSites.map (·.position) := List.map_map
  unfold defect?
  rw [hpositions]
  rfl

theorem Contract.defect?_withoutTargets (c : Contract) : c.withoutTargets.defect? = c.defect? := by
  simp only [defect?, withoutTargets, List.zipIdx_map, List.findSome?_map]
  congr
  funext entry
  exact entry.1.defect?_withoutTargets entry.2

theorem Contract.check_withoutTargets (c : Contract) : c.withoutTargets.check = c.check := by
  rw [check, check, defect?_withoutTargets]
  rfl

namespace FeatureVector

theorem addFunction_withoutTargets (v : FeatureVector) (f : ContractFunction) :
    v.addFunction f.withoutTargets = v.addFunction f := by
  have hcalls : ∀ v : FeatureVector, v.addCalls f.withoutTargets = v.addCalls f := by
    intro v
    simp only [addCalls, ContractFunction.withoutTargets, List.countP_map]
    rfl
  have hwrites : ∀ v : FeatureVector, v.addWrites f.withoutTargets = v.addWrites f := by
    intro v
    simp only [addWrites, ContractFunction.writesAroundInteraction,
      ContractFunction.withoutTargets, List.filter_map, List.map_map]
    rfl
  have hvisibility : ∀ v : FeatureVector, v.addVisibility f.withoutTargets = v.addVisibility f :=
    fun v => rfl
  have hconstructs : ∀ v : FeatureVector, v.addConstructs f.withoutTargets = v.addConstructs f := by
    intro v
    simp only [addConstructs, ContractFunction.withoutTargets, List.countP_map, List.any_map]
    rfl
  simp only [addFunction, hcalls, hwrites, hvisibility, hconstructs]
  rfl

theorem addContract_withoutTargets (v : FeatureVector) (c : Contract) :
    v.addContract c.withoutTargets = v.addContract c := by
  simp only [addContract, Contract.withoutTargets, List.foldl_map, List.flatMap_map,
    addFunction_withoutTargets]
  rfl

end FeatureVector

theorem staticFeatures_withoutTargets (contracts : List Contract) :
    staticFeatures (contracts.map Contract.withoutTargets) = staticFeatures contracts := by
  have hkind : ∀ c : Contract, c.withoutTargets.kind = c.kind := fun c => rfl
  simp only [staticFeatures, concrete_map hkind, List.foldlM_map, Contract.check_withoutTargets,
    FeatureVector.addContract_withoutTargets]

/-! ## Linkage -/

/-- The call with nothing but what the call graph reads. -/
def CallSite.linkage (site : CallSite) : CallSite where
  kind := site.kind
  name := site.name
  target := site.target
  position := 0

/-- The function with nothing but its name and the linkage of its calls. -/
def ContractFunction.linkage (f : ContractFunction) : ContractFunction where
  id := f.id
  visibility := .internally
  callSites := f.callSites.map CallSite.linkage

/-- The contract with nothing but its name, its kind and the linkage of its functions. -/
def Contract.linkage (c : Contract) : Contract where
  id := c.id
  kind := c.kind
  functions := c.functions.map ContractFunction.linkage

theorem ContractFunction.callWeight_linkage (f : ContractFunction) :
    f.linkage.callWeight = f.callWeight := by
  simp only [callWeight, linkage, List.countP_map]
  rfl

theorem declaredFunctions_linkage (contracts : List Contract) :
    declaredFunctions (contracts.map Contract.linkage) =
      (declaredFunctions contracts).map fun (id, f) => (id, f.linkage) := by
  have hkind : ∀ c : Contract, c.linkage.kind = c.kind := fun c => rfl
  simp only [declaredFunctions, concrete_map hkind, List.flatMap_map, List.map_flatMap,
    Contract.linkage, List.map_map]
  rfl

theorem resolvedCalls_linkage (contracts : List Contract) :
    resolvedCalls (contracts.map Contract.linkage) = resolvedCalls contracts := by
  simp only [resolvedCalls, declaredFunctions_linkage, List.flatMap_map,
    ContractFunction.linkage, List.filterMap_map]
  rfl

namespace CallGraph

theorem ofContracts_linkage (contracts : List Contract) :
    ofContracts (contracts.map Contract.linkage) = ofContracts contracts := by
  simp only [ofContracts, resolvedCalls_linkage, declaredFunctions_linkage, ofFunctions,
    List.foldl_map, ContractFunction.callWeight_linkage]

theorem metrics_linkage (contracts : List Contract) :
    Metrics.ofContracts (contracts.map Contract.linkage) = Metrics.ofContracts contracts := by
  rw [metrics_eq, metrics_eq, ofContracts_linkage]

end CallGraph

/-! ## Extraction -/

namespace Extraction

/-- The features of an extraction are the static ones with those of the call graph. -/
theorem features_complete (contracts : List Contract) (v : FeatureVector) :
    (complete v (CallGraph.Metrics.ofContracts contracts)).features = withGraph contracts v := by
  unfold withGraph
  cases CallGraph.Metrics.ofContracts contracts with
  | error e => rfl
  | ok m => rfl

section

variable {contracts contracts' : List Contract} {x x' : Extraction}

theorem static_eq_of_withoutTargets
    (h : contracts.map Contract.withoutTargets = contracts'.map Contract.withoutTargets)
    (hx : ofContracts contracts = .ok x) (hx' : ofContracts contracts' = .ok x') :
    (∀ count ∈ staticCounts, count x.features = count x'.features) ∧
      ∀ flag ∈ staticFlags, flag x.features = flag x'.features := by
  rcases ofContracts_eq_ok_iff.mp hx with ⟨v, hv, rfl⟩
  rcases ofContracts_eq_ok_iff.mp hx' with ⟨v', hv', rfl⟩
  have hsame : v = v' := by
    rw [← staticFeatures_withoutTargets, h, staticFeatures_withoutTargets, hv'] at hv
    exact (Except.ok.inj hv).symm
  rw [features_complete, features_complete, hsame]
  constructor
  · intro count hcount
    rw [count_withGraph contracts v' count hcount, count_withGraph contracts' v' count hcount]
  · intro flag hflag
    rw [flag_withGraph contracts v' flag hflag, flag_withGraph contracts' v' flag hflag]

theorem ungraphed_of_error {e : LinkError} (hx : ofContracts contracts = .ok x)
    (he : CallGraph.ofContracts contracts = .error e) : x.features.Ungraphed := by
  rcases ofContracts_eq_ok_iff.mp hx with ⟨v, hv, rfl⟩
  have hmetrics : CallGraph.Metrics.ofContracts contracts = .error e := by
    rw [CallGraph.metrics_eq, he]
    rfl
  rw [hmetrics]
  exact ungraphed_of_staticFeatures hv

theorem graph_eq_of_linkage
    (h : contracts.map Contract.linkage = contracts'.map Contract.linkage)
    (hx : ofContracts contracts = .ok x) (hx' : ofContracts contracts' = .ok x') :
    x.features.maxCallDepth = x'.features.maxCallDepth ∧
      x.features.hasCycleWithExternalCall = x'.features.hasCycleWithExternalCall ∧
      x.features.externalCallsInCycles = x'.features.externalCallsInCycles ∧
      x.graph = x'.graph ∧ x.warnings = x'.warnings := by
  rcases ofContracts_eq_ok_iff.mp hx with ⟨v, hv, rfl⟩
  rcases ofContracts_eq_ok_iff.mp hx' with ⟨v', hv', rfl⟩
  rw [← CallGraph.metrics_linkage contracts, h, CallGraph.metrics_linkage contracts']
  cases CallGraph.Metrics.ofContracts contracts' with
  | ok m => exact ⟨rfl, rfl, rfl, rfl, rfl⟩
  | error e =>
      -- neither unit has a call graph, so both keep what the scan leaves there
      rcases ungraphed_of_staticFeatures hv with ⟨hdepth, hcycle, hcalls⟩
      rcases ungraphed_of_staticFeatures hv' with ⟨hdepth', hcycle', hcalls'⟩
      exact ⟨hdepth.trans hdepth'.symm, hcycle.trans hcycle'.symm, hcalls.trans hcalls'.symm,
        rfl, rfl⟩

end

/-- Scan and call graph do not interfere. Units that differ in the targets of calls alone have the
same static features, be there a call graph or not; without one its features are 0 or false. Units
with the same linkage, which may differ in visibilities, special functions, writes, modifiers, reads
and in the source text, statement and position of calls, have the same metrics, features of the call
graph and warnings. -/
theorem ofContracts_footprint :
    (∀ contracts contracts' x x',
      contracts.map Contract.withoutTargets = contracts'.map Contract.withoutTargets →
      ofContracts contracts = .ok x → ofContracts contracts' = .ok x' →
      (∀ count ∈ staticCounts, count x.features = count x'.features) ∧
        ∀ flag ∈ staticFlags, flag x.features = flag x'.features) ∧
    (∀ contracts x e, ofContracts contracts = .ok x →
      CallGraph.ofContracts contracts = .error e → x.features.Ungraphed) ∧
    ∀ contracts contracts' x x',
      contracts.map Contract.linkage = contracts'.map Contract.linkage →
      ofContracts contracts = .ok x → ofContracts contracts' = .ok x' →
      x.features.maxCallDepth = x'.features.maxCallDepth ∧
        x.features.hasCycleWithExternalCall = x'.features.hasCycleWithExternalCall ∧
        x.features.externalCallsInCycles = x'.features.externalCallsInCycles ∧
        x.graph = x'.graph ∧ x.warnings = x'.warnings := by
  refine ⟨?_, ?_, ?_⟩
  · intro contracts contracts' x x' h hx hx'
    exact static_eq_of_withoutTargets h hx hx'
  · intro contracts x e hx he
    exact ungraphed_of_error hx he
  · intro contracts contracts' x x' h hx hx'
    exact graph_eq_of_linkage h hx hx'

/-- A relay, whose function makes a call with the given target and place and then writes. -/
def relay (target : FunctionName) (visibility : Visibility) (statement : StatementKind)
    (position : UInt32) (modifiers : List String) : List Contract :=
  [{ id := "Relay"
     kind := .concrete
     functions := [
      { id := "pass"
        visibility
        callSites := [
          { kind := .lowLevel, name := "call", target := some target, statement, position }]
        stateWrites := [⟨"passed", 3⟩]
        modifiers }]
     modifiers }]

theorem ofContracts_relay :
    let circular := relay ⟨"Relay", "pass"⟩ .publicly .expression 2 ["onlyOwner"]
    let unnamed := relay ⟨"Relay", ""⟩ .publicly .expression 2 ["onlyOwner"]
    let checked := relay ⟨"Relay", "pass"⟩ .internally .condition 4 ["lock"]
    ∃ x y z, ofContracts circular = .ok x ∧ ofContracts unnamed = .ok y ∧
      ofContracts checked = .ok z ∧
      x.features.stateWritesAfterCall = y.features.stateWritesAfterCall ∧
      x.features.stateWritesAfterCall = 1 ∧ y.features.Ungraphed ∧
      x.features.externalCallsInCycles = z.features.externalCallsInCycles ∧
      x.features.externalCallsInCycles = 1 ∧ x.graph = z.graph := by
  intro circular unnamed checked
  obtain ⟨x, hx, hcheck⟩ := CallGraph.exists_ok_of_any (x := ofContracts circular)
    (fun x => decide (x.features.stateWritesAfterCall = 1 ∧ x.features.externalCallsInCycles = 1))
    (by decide +kernel)
  obtain ⟨y, hy, -⟩ := CallGraph.exists_ok_of_any (x := ofContracts unnamed) (fun _ => true)
    (by decide +kernel)
  obtain ⟨z, hz, -⟩ := CallGraph.exists_ok_of_any (x := ofContracts checked) (fun _ => true)
    (by decide +kernel)
  rcases of_decide_eq_true hcheck with ⟨hwrites, hcalls⟩
  rcases ofContracts_footprint with ⟨htargets, hfailed, hlinkage⟩
  have hstatic := (htargets circular unnamed x y (by decide) hx hy).1
  have hgraph := hlinkage circular checked x z (by decide) hx hz
  have herror : CallGraph.ofContracts unnamed = .error (.unnamedTarget "Relay.pass") := by rfl
  exact ⟨x, y, z, hx, hy, hz, hstatic _ (by simp [staticCounts]), hwrites,
    hfailed unnamed y _ hy herror, hgraph.2.2.1, hcalls, hgraph.2.2.2.1⟩

end Extraction

end RiskGate

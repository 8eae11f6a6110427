import RiskGate.Proofs.CallGraph.Construction
import RiskGate.Proofs.Facts.Rearrangement

/-! # One graph for all orders

Construction goes through contracts and functions in order, yet the graph does not show it.

* `callSitesByName`, all that construction reads;
* `eq_of_calls`: graphs with the same nodes and the same calls are one graph;
* `ofContracts_of_perm`: if the call sites of every name are listed in another order of functions,
  the same graph is constructed.
-/

namespace RiskGate

/-- The functions of concrete contracts as pairs of their node names and their call sites. -/
def callSitesByName (contracts : List Contract) : List (String × List CallSite) :=
  (concrete contracts).flatMap fun c => c.functions.map fun f => (c.nodeName f, f.callSites)

theorem callSitesByName_eq (contracts : List Contract) :
    callSitesByName contracts =
      (declaredFunctions contracts).map fun (id, f) => (id, f.callSites) := by
  simp only [callSitesByName, declaredFunctions, List.map_flatMap, List.map_map]
  rfl

/-- Rearranging contracts changes nothing but the order of what construction reads. -/
theorem callSitesByName_perm {contracts contracts' : List Contract}
    (h : PermUpTo Contract.Rearranges (concrete contracts) (concrete contracts')) :
    (callSitesByName contracts).Perm (callSitesByName contracts') := by
  apply h.flatMap
  intro c c' hc
  apply hc.functions.map
  intro f f' hf
  rw [hc.nodeName hf, hf.callSites]

section

variable {contracts contracts' : List Contract}
  (h : (callSitesByName contracts).Perm (callSitesByName contracts'))

include h

/-! ## What the contracts say -/

theorem declares_perm (id : String) : Declares contracts id ↔ Declares contracts' id := by
  have hnames : ∀ contracts,
      Declares contracts id ↔ id ∈ (callSitesByName contracts).map (·.1) := by
    intro contracts
    rw [declares_iff, callSitesByName_eq, List.map_map, List.mem_map]
    exact Iff.rfl
  rw [hnames, hnames, (h.map _).mem_iff]

theorem resolvedCalls_perm : (resolvedCalls contracts).Perm (resolvedCalls contracts') := by
  have hcalls : ∀ contracts, resolvedCalls contracts =
      (callSitesByName contracts).flatMap fun (caller, sites) =>
        (sites.filterMap (·.target)).map fun target => (caller, target) := by
    intro contracts
    rw [callSitesByName_eq, List.flatMap_map]
    rfl
  rw [hcalls, hcalls]
  exact h.flatMap_right _

theorem targets_perm (caller : String) (target : FunctionName) :
    Targets contracts caller target ↔ Targets contracts' caller target := by
  rw [targets_iff, targets_iff, (resolvedCalls_perm h).mem_iff]

/-- Functions of one name weigh the same together, in whatever order they are declared. -/
theorem sum_callWeight_perm (id : String) :
    Count.sum ((functionsNamed contracts id).map (·.callWeight)) =
      Count.sum ((functionsNamed contracts' id).map (·.callWeight)) := by
  have hweights : ∀ contracts, (functionsNamed contracts id).map (·.callWeight) =
      ((callSitesByName contracts).filter (·.1 = id)).map fun (_, sites) =>
        Count.ofNat (sites.countP CallSite.weighs) := by
    intro contracts
    rw [functionsNamed_eq, callSitesByName_eq, List.filter_map, List.map_map, List.map_map]
    rfl
  rw [hweights, hweights]
  exact Count.sum_perm ((h.filter _).map _)

end

namespace CallGraph

/-! ## Graphs without empty entries -/

/-- Only nodes that call something have an entry among the edges. -/
def NoEmptyEntry (g : CallGraph) : Prop :=
  ∀ (u : String) (callees : Names), g.edges[u]? = some callees → ∃ w, g.Calls u w

theorem noEmptyEntry_addCall {g : CallGraph} (hg : g.NoEmptyEntry) (caller callee : String) :
    (g.addCall caller callee).NoEmptyEntry := by
  intro u callees hu
  by_cases hcaller : caller = u
  · exact ⟨callee, calls_addCall.mpr (Or.inl ⟨hcaller, rfl⟩)⟩
  · have hold : g.edges[u]? = some callees := by
      simpa [addCall, Std.ExtTreeMap.getElem?_insert, hcaller] using hu
    rcases hg u callees hold with ⟨w, hw⟩
    exact ⟨w, calls_addCall.mpr (Or.inr hw)⟩

theorem noEmptyEntry_addCalls {g : CallGraph} (hg : g.NoEmptyEntry)
    (calls : List (String × FunctionName)) : (g.addCalls calls).NoEmptyEntry := by
  unfold addCalls
  induction calls generalizing g with
  | nil => exact hg
  | cons call calls ih => exact ih (noEmptyEntry_addCall hg call.1 call.2.nodeName)

theorem noEmptyEntry_of_ofContracts {contracts : List Contract} {g : CallGraph}
    (h : ofContracts contracts = .ok g) : g.NoEmptyEntry := by
  rw [eq_addCalls_of_ofContracts h]
  apply noEmptyEntry_addCalls
  -- declarations make no edges
  intro u callees hu
  rw [(ofFunctions_spec _).1] at hu
  simp at hu

theorem calls_iff_of_getElem? {g : CallGraph} {u : String} {callees : Names}
    (h : g.edges[u]? = some callees) (w : String) : g.Calls u w ↔ w ∈ callees := by
  simp [Calls, calls, h]

/-- Without empty entries a graph is determined by its nodes and calls. -/
theorem eq_of_calls {g g' : CallGraph} (hg : g.NoEmptyEntry) (hg' : g'.NoEmptyEntry)
    (hnodes : ∀ v : String, g.nodes[v]? = g'.nodes[v]?)
    (hcalls : ∀ u w, g.Calls u w ↔ g'.Calls u w) : g = g' := by
  have hedges : g.edges = g'.edges := by
    apply Std.ExtTreeMap.ext_getElem?
    intro u
    have hnone : ∀ {g : CallGraph}, g.edges[u]? = none → ∀ w, ¬ g.Calls u w := by
      intro g hu w
      simp [Calls, calls, hu]
    cases hu : g.edges[u]? with
    | none =>
        cases hu' : g'.edges[u]? with
        | none => rfl
        | some callees' =>
            rcases hg' u callees' hu' with ⟨w, hw⟩
            exact absurd ((hcalls u w).mpr hw) (hnone hu w)
    | some callees =>
        cases hu' : g'.edges[u]? with
        | none =>
            rcases hg u callees hu with ⟨w, hw⟩
            exact absurd ((hcalls u w).mp hw) (hnone hu' w)
        | some callees' =>
            congr 1
            ext w
            rw [← calls_iff_of_getElem? hu, ← calls_iff_of_getElem? hu', hcalls]
  rcases g with ⟨nodes, edges⟩
  rcases g' with ⟨nodes', edges'⟩
  rw [mk.injEq]
  exact ⟨Std.ExtTreeMap.ext_getElem? hnodes, hedges⟩

/-! ## Construction -/

/-- The order in which functions are read does not change the graph. -/
theorem ofContracts_of_perm {contracts contracts' : List Contract}
    (h : (callSitesByName contracts).Perm (callSitesByName contracts')) {g : CallGraph}
    (hg : ofContracts contracts = .ok g) : ofContracts contracts' = .ok g := by
  cases hg' : ofContracts contracts' with
  | error e =>
      -- the unnamed target is a target in the other order too
      rcases exists_error_iff.mp ⟨e, hg'⟩ with ⟨caller, target, htargets, hname⟩
      obtain ⟨e', he'⟩ := exists_error_iff.mpr
        ⟨caller, target, (targets_perm h caller target).mpr htargets, hname⟩
      rw [hg] at he'
      cases he'
  | ok g' =>
      have hdescribes := describes_of_ofContracts hg
      have hdescribes' := describes_of_ofContracts hg'
      have hnodes : ∀ v : String, g.nodes[v]? = g'.nodes[v]? := by
        intro v
        by_cases hv : Declares contracts v
        · rw [getElem?_of_declares hg hv, getElem?_of_declares hg' ((declares_perm h v).mp hv),
            sum_callWeight_perm h]
        · have hv' : ¬ Declares contracts' v := fun hv' => hv ((declares_perm h v).mpr hv')
          have hcallee : (∃ call ∈ resolvedCalls contracts, call.2.nodeName = v) ↔
              ∃ call ∈ resolvedCalls contracts', call.2.nodeName = v :=
            exists_congr fun call => and_congr_left' (resolvedCalls_perm h).mem_iff
          rw [getElem?_of_not_declares hg hv, getElem?_of_not_declares hg' hv']
          exact if_congr hcallee rfl rfl
      have hcalls : ∀ u w, g.Calls u w ↔ g'.Calls u w := by
        intro u w
        rw [hdescribes.call, hdescribes'.call]
        simp only [targets_perm h]
      rw [eq_of_calls (noEmptyEntry_of_ofContracts hg) (noEmptyEntry_of_ofContracts hg') hnodes
        hcalls]

end CallGraph

end RiskGate

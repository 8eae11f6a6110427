import RiskGate.Features.Batch
import RiskGate.Proofs.CallGraph.Cycles
import RiskGate.Proofs.Features.Merging

/-! # Units and batches

Extracting a unit and extracting its contracts one by one tell the same about everything but the
call graph.

* `staticCounts` and `staticFlags`, the features that no call graph changes;
* `ofContracts_eachContract`: the unit fails with the first error of the batch, and otherwise its
  static features are the totals of those in the batch.
-/

namespace RiskGate

open FeatureVector

/-- The counts that do not come from the call graph. -/
def staticCounts : List (FeatureVector → Count) :=
  [externalCallCount, delegatecallCount, sendTransferCount, stateWritesBeforeCall,
    stateWritesAfterCall, publicFunctionCount, externalFunctionCount, privateFunctionCount,
    uncheckedCallCount]

/-- The flags that do not come from the call graph. -/
def staticFlags : List (FeatureVector → Bool) :=
  [hasAccessControlModifier, hasReentrancyGuard, usesTxOrigin, hasSelfdestruct]

/-! ## Static features of merged vectors -/

theorem count_withGraph (contracts : List Contract) (v : FeatureVector) :
    ∀ count ∈ staticCounts, count (withGraph contracts v) = count v := by
  unfold withGraph
  cases CallGraph.Metrics.ofContracts contracts with
  | error e => simp
  | ok m => simp [staticCounts, withMetrics]

theorem flag_withGraph (contracts : List Contract) (v : FeatureVector) :
    ∀ flag ∈ staticFlags, flag (withGraph contracts v) = flag v := by
  unfold withGraph
  cases CallGraph.Metrics.ofContracts contracts with
  | error e => simp
  | ok m => simp [staticFlags, withMetrics]

theorem count_merge (v w : FeatureVector) :
    ∀ count ∈ staticCounts, count (v.merge w) = count v + count w := by
  simp [staticCounts, merge]

theorem flag_merge (v w : FeatureVector) :
    ∀ flag ∈ staticFlags, flag (v.merge w) = (flag v || flag w) := by
  simp [staticFlags, merge]

theorem count_foldl_merge {count : FeatureVector → Count} (h : count ∈ staticCounts)
    (vs : List FeatureVector) : count (vs.foldl merge {}) = Count.sum (vs.map count) := by
  have hfold : ∀ v, count (vs.foldl merge v) = (vs.map count).foldl (· + ·) (count v) := by
    induction vs with
    | nil => exact fun v => rfl
    | cons w vs ih =>
        intro v
        rw [List.foldl_cons, ih, count_merge v w count h, List.map_cons, List.foldl_cons]
  have hempty : ∀ count ∈ staticCounts, count {} = 0 := by simp [staticCounts]
  rw [hfold, hempty count h, Count.sum]

theorem flag_foldl_merge {flag : FeatureVector → Bool} (h : flag ∈ staticFlags)
    (vs : List FeatureVector) : flag (vs.foldl merge {}) = vs.any flag := by
  have hfold : ∀ v, flag (vs.foldl merge v) = (flag v || vs.any flag) := by
    induction vs with
    | nil => exact fun v => (Bool.or_false _).symm
    | cons w vs ih =>
        intro v
        rw [List.foldl_cons, ih, flag_merge v w flag h, List.any_cons, Bool.or_assoc]
  have hempty : ∀ flag ∈ staticFlags, flag {} = false := by simp [staticFlags]
  rw [hfold, hempty flag h, Bool.false_or]

/-! ## One contract and all contracts -/

theorem ofContracts_eq_error_iff {contracts : List Contract} {e : ExtractionError} :
    FeatureVector.ofContracts contracts = .error e ↔
      (concrete contracts).findSome? Contract.error? = some e := by
  rw [FeatureVector.ofContracts_eq, staticFeatures_eq]
  cases (concrete contracts).findSome? Contract.error? with
  | none => simp [Except.map]
  | some e' => simp [Except.map]

theorem ofContracts_eq_ok_iff {contracts : List Contract} {v : FeatureVector} :
    FeatureVector.ofContracts contracts = .ok v ↔
      (∀ c ∈ concrete contracts, c.error? = none) ∧
        v = withGraph contracts (((concrete contracts).map Contract.features).foldl merge {}) := by
  rw [FeatureVector.ofContracts_eq, staticFeatures_eq, ← List.findSome?_eq_none_iff]
  cases (concrete contracts).findSome? Contract.error? with
  | none => simp [Except.map, eq_comm]
  | some e => simp [Except.map]

/-- What the batch has for a contract. -/
def Contract.outcome (c : Contract) : ContractFeatures where
  contract := c.id
  result := FeatureVector.ofContracts [c]

theorem eachContract_eq (contracts : List Contract) :
    eachContract contracts = (concrete contracts).map Contract.outcome := rfl

theorem concrete_singleton {contracts : List Contract} {c : Contract}
    (h : c ∈ concrete contracts) : concrete [c] = [c] := by
  simp [concrete, (List.mem_filter.mp h).2]

theorem outcome_eq_error_iff {contracts : List Contract} {c : Contract} {e : ExtractionError}
    (h : c ∈ concrete contracts) : c.outcome.result = .error e ↔ c.error? = some e := by
  rw [Contract.outcome, ofContracts_eq_error_iff, concrete_singleton h, List.findSome?_singleton]

theorem outcome_eq_ok_iff {contracts : List Contract} {c : Contract} {v : FeatureVector}
    (h : c ∈ concrete contracts) :
    c.outcome.result = .ok v ↔ c.error? = none ∧ v = withGraph [c] c.features := by
  rw [Contract.outcome, ofContracts_eq_ok_iff, concrete_singleton h]
  simp

/-! ## Agreement -/

/-- The error of an outcome, if it has one. -/
def ContractFeatures.error? (outcome : ContractFeatures) : Option ExtractionError :=
  match outcome.result with
  | .error e => some e
  | .ok _ => none

theorem error?_eq_some_iff {outcome : ContractFeatures} {e : ExtractionError} :
    outcome.error? = some e ↔ outcome.result = .error e := by
  unfold ContractFeatures.error?
  cases outcome.result with
  | error e' => simp
  | ok w => simp

theorem error?_eq_none_iff {outcome : ContractFeatures} :
    outcome.error? = none ↔ ∃ w, outcome.result = .ok w := by
  unfold ContractFeatures.error?
  cases outcome.result with
  | error e => simp
  | ok w => simp

theorem error?_outcome {contracts : List Contract} {c : Contract} (h : c ∈ concrete contracts) :
    c.outcome.error? = c.error? := by
  cases he : c.error? with
  | some e => exact error?_eq_some_iff.mpr ((outcome_eq_error_iff h).mpr he)
  | none => exact error?_eq_none_iff.mpr ⟨_, (outcome_eq_ok_iff h).mpr ⟨he, rfl⟩⟩

theorem findSome?_eachContract (contracts : List Contract) :
    (eachContract contracts).findSome? ContractFeatures.error? =
      (concrete contracts).findSome? Contract.error? := by
  rw [eachContract_eq, List.findSome?_map, ← List.head?_filterMap, ← List.head?_filterMap]
  exact congrArg List.head? (List.filterMap_congr fun c hc => error?_outcome hc)

/-- A unit and its batch agree. The unit fails exactly if some contract of the batch does, with the
error of the first one. Otherwise the static counts of the unit are the sums over the batch, cut at
the limit of counts, and its static flags are set if they are set for some contract. -/
theorem ofContracts_eachContract (contracts : List Contract) :
    (∀ e, FeatureVector.ofContracts contracts = .error e ↔
      ∃ before outcome after, eachContract contracts = before ++ outcome :: after ∧
        outcome.result = .error e ∧ ∀ earlier ∈ before, ∃ w, earlier.result = .ok w) ∧
    ∀ v, FeatureVector.ofContracts contracts = .ok v →
      ∃ vs : List FeatureVector, (eachContract contracts).map (·.result) = vs.map .ok ∧
        (∀ count ∈ staticCounts, count v = Count.sum (vs.map count)) ∧
        ∀ flag ∈ staticFlags, flag v = vs.any flag := by
  constructor
  · intro e
    rw [ofContracts_eq_error_iff, ← findSome?_eachContract, List.findSome?_eq_some_iff]
    simp only [error?_eq_some_iff, error?_eq_none_iff]
  intro v hv
  obtain ⟨hvalid, rfl⟩ := ofContracts_eq_ok_iff.mp hv
  refine ⟨(concrete contracts).map fun c => withGraph [c] c.features, ?_, ?_, ?_⟩
  · rw [eachContract_eq, List.map_map, List.map_map]
    apply List.map_congr_left
    intro c hc
    exact (outcome_eq_ok_iff hc).mpr ⟨hvalid c hc, rfl⟩
  · intro count hcount
    rw [count_withGraph contracts _ count hcount, count_foldl_merge hcount, List.map_map,
      List.map_map]
    congr 1
    apply List.map_congr_left
    exact fun c _ => (count_withGraph [c] c.features count hcount).symm
  · intro flag hflag
    rw [flag_withGraph contracts _ flag hflag, flag_foldl_merge hflag, List.any_map, List.any_map]
    congr 1
    funext c
    exact (flag_withGraph [c] c.features flag hflag).symm

/-- A wallet that pays through a token, an interface without names, and the token. -/
def walletAndToken : List Contract :=
  [{ id := "Wallet"
     kind := .concrete
     functions :=
      [{ id := "pay"
         visibility := .externally
         callSites :=
          [{ kind := .external, name := "move", target := some ⟨"Token", "move"⟩, position := 1 }]
         stateWrites := [⟨"paid", 2⟩] }] },
   { id := "", kind := .interface, functions := [{ id := "", visibility := .publicly }] },
   { id := "Token"
     kind := .concrete
     functions :=
      [{ id := "move"
         visibility := .publicly
         callSites := [{ kind := .lowLevel, name := "call", position := 2 }]
         stateWrites := [⟨"balance", 1⟩, ⟨"balance", 3⟩]
         modifiers := ["onlyOwner"] }] }]

theorem ofContracts_walletAndToken :
    ∃ (v : FeatureVector) (vs : List FeatureVector),
      FeatureVector.ofContracts walletAndToken = .ok v ∧
      (eachContract walletAndToken).map (·.result) = vs.map .ok ∧ vs.length = 2 ∧
      v.stateWritesAfterCall = Count.sum (vs.map stateWritesAfterCall) ∧
      v.stateWritesAfterCall = 2 ∧ v.hasAccessControlModifier = true ∧
      ∃ w ∈ vs, w.hasAccessControlModifier = true := by
  obtain ⟨v, hv, hcheck⟩ := CallGraph.exists_ok_of_any
    (x := FeatureVector.ofContracts walletAndToken)
    (fun v => decide (v.stateWritesAfterCall = 2 ∧ v.hasAccessControlModifier = true))
    (by decide +kernel)
  obtain ⟨hwrites, haccess⟩ := of_decide_eq_true hcheck
  obtain ⟨vs, hresults, hcounts, hflags⟩ := (ofContracts_eachContract walletAndToken).2 v hv
  have hlength : vs.length = 2 := by
    have := congrArg List.length hresults
    rwa [List.length_map, List.length_map, eq_comm] at this
  have hany := hflags hasAccessControlModifier (by simp [staticFlags])
  rw [haccess, eq_comm, List.any_eq_true] at hany
  exact ⟨v, vs, hv, hresults, hlength, hcounts stateWritesAfterCall (by simp [staticCounts]),
    hwrites, haccess, hany⟩

end RiskGate

import RiskGate.Proofs.Features.Footprint
import RiskGate.Proofs.Features.Interactions
import RiskGate.Proofs.Stages

/-! # Rejected units

An extraction goes through one list of checks: contract after contract, for each of them its own
name, and then function after function the name, the order of the calls and the order of the state
writes. The first check that fails decides the error.

* `OutOfOrder` and `outOfOrder_iff`: comparing neighbours finds any two items out of order;
* `Contract.checks` and `Check.FailsWith`, the checks in their order, each with its own error;
* `Contract.error?_eq_some_iff`: the error of a contract is that of its first failing check;
* `Extraction.ofContracts_firstDefect`: when an extraction fails, with which error, and what it does
  not look at.
-/

namespace RiskGate

/-! ## Items out of order -/

/-- Some item stands before one with a smaller position; others may stand between the two. -/
def OutOfOrder {α : Type} (position : α → UInt32) (items : List α) : Prop :=
  ∃ earlier later, [earlier, later].Sublist items ∧ position later < position earlier

theorem outOfOrder_iff {α : Type} {position : α → UInt32} {items : List α} :
    OutOfOrder position items ↔ inOrder (items.map position) = false := by
  have hpairs : inOrder (items.map position) = true ↔
      ∀ {earlier later}, [earlier, later].Sublist items → position earlier ≤ position later := by
    rw [inOrder_iff, List.pairwise_map, List.pairwise_iff_forall_sublist]
  rw [← Bool.not_eq_true, hpairs]
  simp only [OutOfOrder, not_forall, UInt32.not_le, exists_prop]

instance {α : Type} (position : α → UInt32) (items : List α) :
    Decidable (OutOfOrder position items) :=
  decidable_of_iff _ outOfOrder_iff.symm

/-! ## Checks -/

/-- Something that extraction checks of a contract or of one of its functions. -/
inductive Check where
  | contractId (c : Contract)
  | functionId (c : Contract) (index : Nat) (f : ContractFunction)
  | callSites (c : Contract) (f : ContractFunction)
  | stateWrites (c : Contract) (f : ContractFunction)

/-- The checks of a contract in their order. -/
def Contract.checks (c : Contract) : List Check :=
  .contractId c :: c.functions.zipIdx.flatMap fun (f, index) =>
    [.functionId c index f, .callSites c f, .stateWrites c f]

/-- Whether a check fails with an error, whatever the other checks do. -/
def Check.FailsWith : Check → ExtractionError → Prop
  | .contractId c, e => c.id = "" ∧ ⟨c.id, .emptyContractId⟩ = e
  | .functionId c index f, e => f.id = "" ∧ ⟨c.id, .emptyFunctionId index⟩ = e
  | .callSites c f, e =>
    OutOfOrder CallSite.position f.callSites ∧ ⟨c.id, .unorderedCallSites f.id⟩ = e
  | .stateWrites c f, e =>
    OutOfOrder StateWrite.position f.stateWrites ∧ ⟨c.id, .unorderedStateWrites f.id⟩ = e

/-- Something is wrong with the contract. -/
def Contract.Defective (c : Contract) : Prop :=
  c.id = "" ∨ ∃ f ∈ c.functions,
    f.id = "" ∨ OutOfOrder CallSite.position f.callSites ∨
      OutOfOrder StateWrite.position f.stateWrites

/-- A contract has an error exactly if something is wrong with it. -/
theorem Contract.error?_ne_none_iff {c : Contract} : c.error? ≠ none ↔ c.Defective := by
  have hfunction : ∀ f : ContractFunction, ¬ f.Fit ↔
      f.id = "" ∨ OutOfOrder CallSite.position f.callSites ∨
        OutOfOrder StateWrite.position f.stateWrites := by
    intro f
    have hfit : f.Fit ↔ f.id ≠ "" ∧ inOrder (f.callSites.map (·.position)) = true ∧
        inOrder (f.stateWrites.map (·.position)) = true :=
      ⟨fun h => ⟨h.named, h.callSites, h.stateWrites⟩, fun h => ⟨h.1, h.2.1, h.2.2⟩⟩
    rw [hfit, outOfOrder_iff, outOfOrder_iff, ← Bool.not_eq_true, ← Bool.not_eq_true]
    tauto
  simp only [ne_eq, error?_eq_none_iff, not_and_or, not_forall, hfunction, Defective, not_not,
    exists_prop]

/-- The first defect of a function is that of its first failing check. -/
theorem ContractFunction.defect?_eq_some_iff (c : Contract) (index : Nat) (f : ContractFunction)
    (e : ExtractionError) :
    (f.defect? index).map (fun defect => ⟨c.id, defect⟩) = some e ↔
      FirstFailure [.functionId c index f, .callSites c f, .stateWrites c f]
        Check.FailsWith e := by
  simp only [firstFailure_cons, not_firstFailure_nil, Check.FailsWith, outOfOrder_iff, defect?]
  by_cases hname : f.id = ""
  · simp [hname]
  · cases hcalls : inOrder (f.callSites.map (·.position)) with
    | false => simp [hname]
    | true =>
      cases hwrites : inOrder (f.stateWrites.map (·.position)) with
      | false => simp [hname]
      | true => simp [hname]

/-- The error of a contract is that of its first failing check. -/
theorem Contract.error?_eq_some_iff (c : Contract) (e : ExtractionError) :
    c.error? = some e ↔ FirstFailure c.checks Check.FailsWith e := by
  rw [checks, firstFailure_cons, error?, defect?]
  by_cases hname : c.id = ""
  · simp [hname, Check.FailsWith]
  · have hfunctions : (c.functions.zipIdx.findSome? fun (f, index) => f.defect? index).map
          (fun defect => ⟨c.id, defect⟩) = some e ↔
        FirstFailure (c.functions.zipIdx.flatMap fun (f, index) =>
          [.functionId c index f, .callSites c f, .stateWrites c f]) Check.FailsWith e := by
      rw [List.map_findSome?]
      apply findSome?_eq_some_iff_firstFailure
      rintro ⟨f, index⟩ -
      exact f.defect?_eq_some_iff c index
    rw [if_neg hname, hfunctions]
    simp [hname, Check.FailsWith]

/-! ## Units -/

/-- The first error is not in the targets of calls. -/
theorem findSome?_error?_withoutTargets (contracts : List Contract) :
    (contracts.map Contract.withoutTargets).findSome? Contract.error? =
      contracts.findSome? Contract.error? := by
  have herror : Contract.error? ∘ Contract.withoutTargets = Contract.error? := by
    funext c
    rw [Function.comp_apply, Contract.error?, Contract.defect?_withoutTargets]
    rfl
  rw [List.findSome?_map, herror]

namespace Extraction

/-- An extraction fails exactly if some concrete contract or one of its functions has no name, or
calls or state writes of a function are out of order, be they neighbours or not. The error is that
of the first check that fails: contracts and functions are checked in their order, the name of a
contract before its functions, and of a function the name before the calls and the calls before the
writes. Contracts that are not concrete and the targets of calls may be changed at will without
changing the error. -/
theorem ofContracts_firstDefect (contracts : List Contract) :
    ((∃ e, ofContracts contracts = .error e) ↔
      ∃ c ∈ contracts, c.kind = .concrete ∧ c.Defective) ∧
    (∀ e, ofContracts contracts = .error e ↔
      FirstFailure ((concrete contracts).flatMap Contract.checks) Check.FailsWith e) ∧
    ∀ contracts' e,
      (concrete contracts').map Contract.withoutTargets =
        (concrete contracts).map Contract.withoutTargets →
      (ofContracts contracts' = .error e ↔ ofContracts contracts = .error e) := by
  refine ⟨?_, ?_, ?_⟩
  · rw [exists_eq_error_iff]
    simp only [Contract.error?_ne_none_iff, concrete, List.mem_filter, Contract.isConcrete,
      decide_eq_true_eq, and_assoc]
  · intro e
    rw [ofContracts_eq_error_iff]
    exact findSome?_eq_some_iff_firstFailure fun c _ => c.error?_eq_some_iff
  · intro contracts' e hsame
    rw [ofContracts_eq_error_iff, ofContracts_eq_error_iff,
      ← findSome?_error?_withoutTargets (concrete contracts'), hsame,
      findSome?_error?_withoutTargets]

/-- An interface without any names, a vault that calls a function without a name, a ledger and a
contract without a name. In the ledger one function has calls and writes out of order and another
one has no name. -/
def unsettled : List Contract :=
  [{ id := "", kind := .interface, functions := [{ id := "", visibility := .externally }] },
   { id := "Vault"
     kind := .concrete
     functions :=
      [{ id := "pay"
         visibility := .publicly
         callSites :=
          [{ kind := .external, name := "open", target := some ⟨"Bank", ""⟩, position := 1 }] }] },
   { id := "Ledger"
     kind := .concrete
     functions :=
      [{ id := "post"
         visibility := .publicly
         stateWrites := [⟨"total", 1⟩, ⟨"total", 1⟩] },
       { id := "close"
         visibility := .publicly
         callSites :=
          [{ kind := .internal, name := "sum", position := 4 },
           { kind := .lowLevel, name := "call", position := 5 },
           { kind := .internal, name := "post", position := 3 }]
         stateWrites := [⟨"closed", 2⟩, ⟨"total", 1⟩] },
       { id := "", visibility := .privately }] },
   { id := "", kind := .concrete }]

theorem ofContracts_unsettled :
    let stripped := (concrete unsettled).map Contract.withoutTargets
    let e : ExtractionError := ⟨"Ledger", .unorderedCallSites "close"⟩
    (concrete stripped).map Contract.withoutTargets =
        (concrete unsettled).map Contract.withoutTargets ∧
      FirstFailure ((concrete unsettled).flatMap Contract.checks) Check.FailsWith e ∧
      ofContracts unsettled = .error e ∧ ofContracts stripped = .error e := by
  intro stripped e
  have hsame : (concrete stripped).map Contract.withoutTargets =
      (concrete unsettled).map Contract.withoutTargets := by decide
  have herror : ofContracts unsettled = .error e := by rfl
  rcases ofContracts_firstDefect unsettled with ⟨-, hfirst, hblind⟩
  exact ⟨hsame, (hfirst e).mp herror, herror, (hblind stripped e hsame).mpr herror⟩

end Extraction

end RiskGate

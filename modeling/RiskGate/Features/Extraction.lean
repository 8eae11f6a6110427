import RiskGate.CallGraph.Metrics
import RiskGate.Facts.Validity
import RiskGate.Features.Vector

/-! # Feature extraction

Every concrete contract is checked and scanned once; the counts of all contracts add up in one
vector. The three features that come from the call graph stay 0 or false if there is no call graph,
and a warning says so.
-/

namespace RiskGate

/-! ## Words that are looked for -/

/-- Modifiers that restrict who may call. -/
def accessControlWords : List String := ["only", "require", "auth", "admin", "owner"]

/-- Modifiers that keep a function from being entered again. -/
def reentrancyGuardWords : List String := ["nonreentrant", "noreentrancy", "mutex", "lock", "guard"]

/-- Calls that destroy the contract. -/
def selfdestructWords : List String := ["selfdestruct", "suicide"]

/-! ## Call sites -/

namespace CallSite

/-- Whether the name or the source text of the call mentions a word. -/
def mentions (site : CallSite) (word : String) : Bool :=
  Text.mentions site.name word || site.expression.any (Text.mentions · word)

/-- Whether the call runs foreign code in the contract's own storage, by its kind, its name or its
source text. -/
def runsForeignCode (site : CallSite) : Bool :=
  (site.kind = .internal && Text.mentions site.name "delegatecall") ||
  (site.leavesContract && (site.kind = .delegate || Text.mentions site.name "delegatecall")) ||
  site.expression.any (Text.mentions · "delegatecall")

/-- Whether the call sends currency. -/
def sendsCurrency (site : CallSite) : Bool :=
  site.kind = .send || site.kind = .transfer ||
    (site.leavesContract && (site.name = "send" || site.name = "transfer"))

/-- Whether the call reports failure by what it returns. -/
def returnsStatus (site : CallSite) : Bool :=
  site.kind = .lowLevel || site.kind = .delegate || site.kind = .send || site.mentions "call"

/-- Whether the call may fail without anyone noticing. -/
def mayFailUnnoticed (site : CallSite) : Bool := site.returnsStatus && !site.statement.looksAtResult

/-- Whether the call destroys the contract. -/
def destroysContract (site : CallSite) : Bool := selfdestructWords.any site.mentions

end CallSite

/-! ## Checks, effects, interactions -/

/-- How many of the writes come before the first of the external calls and how many after it, both
given by their positions in order. `seen` says that an external call has come already; it never
turns back. A write at the position of a call belongs to the same statement and counts as before it.
-/
def scanWrites : Bool → List UInt32 → List UInt32 → Nat × Nat
  | _, _, [] => (0, 0)
  | seen, calls, write :: writes =>
    let later := calls.dropWhile (· < write)
    let seen := seen || later.length < calls.length
    let (before, after) := scanWrites seen later writes
    if seen then (before, after + 1) else (before + 1, after)

/-- How many state writes come before and after the first external call. -/
def ContractFunction.writesAroundInteraction (f : ContractFunction) : Nat × Nat :=
  scanWrites false ((f.callSites.filter (·.leavesContract)).map (·.position))
    (f.stateWrites.map (·.position))

/-! ## Functions and contracts -/

namespace FeatureVector

/-- Adds the calls of a function. -/
def addCalls (v : FeatureVector) (f : ContractFunction) : FeatureVector :=
  { v with
    externalCallCount := v.externalCallCount + .ofNat (f.callSites.countP (·.leavesContract))
    delegatecallCount := v.delegatecallCount + .ofNat (f.callSites.countP (·.runsForeignCode))
    sendTransferCount := v.sendTransferCount + .ofNat (f.callSites.countP (·.sendsCurrency)) }

/-- Adds the state writes of a function. -/
def addWrites (v : FeatureVector) (f : ContractFunction) : FeatureVector :=
  let (before, after) := f.writesAroundInteraction
  { v with
    stateWritesBeforeCall := v.stateWritesBeforeCall + .ofNat before
    stateWritesAfterCall := v.stateWritesAfterCall + .ofNat after }

/-- Counts a function by its visibility; internal functions are not counted. -/
def addVisibility (v : FeatureVector) (f : ContractFunction) : FeatureVector :=
  match f.visibility with
  | .publicly => { v with publicFunctionCount := v.publicFunctionCount + 1 }
  | .externally => { v with externalFunctionCount := v.externalFunctionCount + 1 }
  | .privately => { v with privateFunctionCount := v.privateFunctionCount + 1 }
  | .internally => v

/-- Adds the dangerous constructs of a function. -/
def addConstructs (v : FeatureVector) (f : ContractFunction) : FeatureVector :=
  { v with
    usesTxOrigin := v.usesTxOrigin ||
      f.specialReads.any fun name => Text.occursIn "tx.origin".toList name.toList
    hasSelfdestruct := v.hasSelfdestruct || f.callSites.any (·.destroysContract)
    uncheckedCallCount := v.uncheckedCallCount + .ofNat (f.callSites.countP (·.mayFailUnnoticed)) }

/-- Adds a function. -/
def addFunction (v : FeatureVector) (f : ContractFunction) : FeatureVector :=
  let v := if f.exemptFromCallCounts then v else (v.addCalls f).addWrites f
  let v := if f.exemptFromVisibilityCounts then v else v.addVisibility f
  v.addConstructs f

/-- Adds the name of a modifier. -/
def addModifier (v : FeatureVector) (name : String) : FeatureVector :=
  { v with
    hasAccessControlModifier := v.hasAccessControlModifier ||
      Text.mentionsAny name accessControlWords
    hasReentrancyGuard := v.hasReentrancyGuard || Text.mentionsAny name reentrancyGuardWords }

/-- Adds a contract: its functions, its modifiers and those that its functions apply. -/
def addContract (v : FeatureVector) (c : Contract) : FeatureVector :=
  let v := c.functions.foldl addFunction v
  (c.modifiers ++ c.functions.flatMap (·.modifiers)).foldl addModifier v

/-- Takes the features over that come from the call graph. -/
def withMetrics (v : FeatureVector) (m : CallGraph.Metrics) : FeatureVector :=
  { v with
    maxCallDepth := m.maxCallDepth
    hasCycleWithExternalCall := m.externalCallInCycle
    externalCallsInCycles := m.externalCallsInCycles }

end FeatureVector

/-! ## Compilation units -/

/-- The features of a compilation unit, and what came up on the way. -/
structure Extraction where
  features : FeatureVector
  /-- `none` if there is no call graph and its features kept their defaults. -/
  graph : Option CallGraph.Metrics
  warnings : List String

/-- The features that do not depend on the call graph, or the first defect in the order of the
contracts. -/
def staticFeatures (contracts : List Contract) : Except ExtractionError FeatureVector :=
  (concrete contracts).foldlM
    (fun v c => do
      c.check
      return v.addContract c)
    {}

/-- The features of a compilation unit with the metrics of its call graph. -/
def Extraction.ofContracts (contracts : List Contract) : Except ExtractionError Extraction := do
  let features ← staticFeatures contracts
  match CallGraph.Metrics.ofContracts contracts with
  | .ok m => return { features := features.withMetrics m, graph := some m, warnings := [] }
  | .error e =>
    return { features, graph := none, warnings := ["call graph analysis failed: " ++ e.message] }

/-- The features of a compilation unit. -/
def FeatureVector.ofContracts (contracts : List Contract) : Except ExtractionError FeatureVector :=
  (Extraction.ofContracts contracts).map (·.features)

end RiskGate

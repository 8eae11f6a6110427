import RiskGate.CallGraph.Basic
import RiskGate.Facts.Basic
import RiskGate.Text.Search

/-! # The call graph of a list of contracts

Functions of concrete contracts are declared first, so that a call never makes a placeholder of a
function that is declared later. Overloads share a name and with it a node. Then every call site
with a known target adds an edge.
-/

namespace RiskGate

/-- Why there is no call graph. -/
inductive LinkError where
  /-- A call site of `caller` has a target without a function name. -/
  | unnamedTarget (caller : String)
  deriving DecidableEq

/-- The text of the error. -/
def LinkError.message : LinkError → String
  | .unnamedTarget caller =>
    "call site in `" ++ caller ++ "` resolves to a target with an empty function id"

/-- Whether a call site counts towards the weight of its function: it leaves the contract, or it is
internal and its name speaks of a call. -/
def CallSite.weighs (site : CallSite) : Bool :=
  site.leavesContract || (site.kind = .internal && Text.mentions site.name "call")

/-- The weight that a function brings to its node. -/
def ContractFunction.callWeight (f : ContractFunction) : Count :=
  .ofNat (f.callSites.countP CallSite.weighs)

/-- The functions of concrete contracts with their qualified names, in order. -/
def declaredFunctions (contracts : List Contract) : List (String × ContractFunction) :=
  (concrete contracts).flatMap fun c => c.functions.map fun f => (c.nodeName f, f)

/-- The calls with known targets, each with the name of its caller, in order. -/
def resolvedCalls (contracts : List Contract) : List (String × FunctionName) :=
  (declaredFunctions contracts).flatMap fun (caller, f) =>
    (f.callSites.filterMap (·.target)).map fun target => (caller, target)

namespace CallGraph

/-- The graph of the declared functions, without calls. -/
def ofFunctions (functions : List (String × ContractFunction)) : CallGraph :=
  functions.foldl (fun g (id, f) => g.declare id f.callWeight) {}

/-- The graph with one more call, unless the target has no function name. -/
def link (g : CallGraph) (call : String × FunctionName) : Except LinkError CallGraph :=
  if call.2.function = "" then .error (.unnamedTarget call.1)
  else .ok (g.addCall call.1 call.2.nodeName)

/-- The call graph of the contracts. -/
def ofContracts (contracts : List Contract) : Except LinkError CallGraph :=
  (resolvedCalls contracts).foldlM link (ofFunctions (declaredFunctions contracts))

end CallGraph

end RiskGate

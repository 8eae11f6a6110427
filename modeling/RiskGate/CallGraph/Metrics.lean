import RiskGate.CallGraph.Construction
import RiskGate.CallGraph.Cycles

/-! # Metrics of a call graph

What the call graph says about reentrancy, and a session that keeps the graph and the depths once
they are computed.
-/

namespace RiskGate.CallGraph

/-- Indicators of reentrancy. -/
structure Metrics where
  hasCycles : Bool
  /-- The number of cycles found, cycles with the same members counted each. -/
  cycleCount : Count
  maxCallDepth : Count
  functionsInCycles : Names
  /-- The weights of the functions in cycles, each counted once. -/
  externalCallsInCycles : Count

/-- A cycle together with an external call: necessary for reentrancy, and not sufficient. -/
def Metrics.externalCallInCycle (m : Metrics) : Bool :=
  m.hasCycles && 0 < m.externalCallsInCycles

/-- The functions on the cycles. -/
def functionsIn (cycles : List (List String)) : Names := Std.ExtTreeSet.ofList cycles.flatten

/-- The metrics of a graph, given its greatest depth. -/
def metrics (g : CallGraph) (maxCallDepth : Count) : Metrics :=
  let cycles := g.closedCycles
  let functions := functionsIn cycles
  { hasCycles := !cycles.isEmpty
    cycleCount := .ofNat cycles.length
    maxCallDepth
    functionsInCycles := functions
    externalCallsInCycles := .sum (functions.toList.map g.weight) }

/-! ## Sessions -/

/-- Repeated questions about the call graph of one list of contracts. -/
structure Session where
  contracts : List Contract
  /-- The graph, once it is constructed. -/
  known : Option CallGraph := none
  /-- The depths computed so far. -/
  depths : Depths := ∅

namespace Session

/-- The call graph, constructed unless it is known. -/
def currentGraph (s : Session) : Except LinkError CallGraph :=
  match s.known with
  | some g => .ok g
  | none => CallGraph.ofContracts s.contracts

/-- The call graph, which the session then knows. After a failure it still knows none. -/
def graph (s : Session) : Except LinkError CallGraph × Session :=
  match s.currentGraph with
  | .error e => (.error e, s)
  | .ok g => (.ok g, { s with known := some g })

/-- The metrics of the call graph. The session then knows the graph and all depths. -/
def metrics (s : Session) : Except LinkError Metrics × Session :=
  match s.currentGraph with
  | .error e => (.error e, s)
  | .ok g =>
    let (depth, depths) := g.maxDepth s.depths
    (.ok (g.metrics depth), { s with known := some g, depths })

end Session

/-- The metrics of the call graph of the contracts. -/
def Metrics.ofContracts (contracts : List Contract) : Except LinkError Metrics :=
  (Session.metrics { contracts }).1

end RiskGate.CallGraph

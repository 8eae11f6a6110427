import RiskGate.Count
import Std.Data.ExtTreeMap
import Std.Data.ExtTreeSet

/-! # Call graphs

A directed graph over the qualified names of functions. Nodes, edges and successors are kept in the
order of their names, and graphs with the same nodes and edges are equal.
-/

namespace RiskGate

/-- A function in the call graph. -/
structure CallNode where
  /-- How many of its call sites leave the contract, or have a name that speaks of a call. -/
  externalCallWeight : Count
  /-- Only called, and declared by no contract. -/
  placeholder : Bool
  deriving DecidableEq

/-- A set of names in order. -/
abbrev Names := Std.ExtTreeSet String

/-- The calls between functions. A function that calls nothing has no entry among the edges. -/
structure CallGraph where
  nodes : Std.ExtTreeMap String CallNode := ∅
  edges : Std.ExtTreeMap String Names := ∅

namespace CallGraph

/-- The number of nodes. -/
def nodeCount (g : CallGraph) : Nat := g.nodes.size

/-- The number of edges. -/
def edgeCount (g : CallGraph) : Nat :=
  g.edges.foldl (fun count _ callees => count + callees.size) 0

/-- Whether the graph has a node of that name. -/
def contains (g : CallGraph) (id : String) : Bool := g.nodes.contains id

/-- Whether one node calls another. -/
def calls (g : CallGraph) (caller callee : String) : Bool :=
  match g.edges[caller]? with
  | some callees => callees.contains callee
  | none => false

/-- What a node calls, in order. -/
def successors (g : CallGraph) (id : String) : List String :=
  match g.edges[id]? with
  | some callees => callees.toList
  | none => []

/-- The weight of a node, 0 if there is none of that name. -/
def weight (g : CallGraph) (id : String) : Count :=
  match g.nodes[id]? with
  | some node => node.externalCallWeight
  | none => 0

/-- The graph with a declared function. A further function of the same name adds its weight to the
node. -/
def declare (g : CallGraph) (id : String) (weight : Count) : CallGraph :=
  let node : CallNode := { externalCallWeight := g.weight id + weight, placeholder := false }
  { g with nodes := g.nodes.insert id node }

/-- The graph with a call. A callee that is no node yet becomes a placeholder. -/
def addCall (g : CallGraph) (caller callee : String) : CallGraph where
  nodes := g.nodes.insertIfNew callee { externalCallWeight := 0, placeholder := true }
  edges := g.edges.insert caller (((g.edges[caller]?).getD ∅).insert callee)

end CallGraph

end RiskGate

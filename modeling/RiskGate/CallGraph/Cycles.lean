import RiskGate.CallGraph.Depth

/-! # Cycles of calls

A depth-first search from every node in order. A call back to a function on the current path closes
a cycle, which is the part of the path from that function on. Every such call is recorded once;
different ones may close cycles with the same members.
-/

namespace RiskGate

/-- A search for cycles from one root, after earlier roots. -/
structure CycleSearch where
  /-- The successors not looked at yet of each node on the path, innermost first. -/
  frames : List (List String)
  /-- The current path, innermost node first. -/
  path : List String
  /-- The nodes of the path. -/
  onPath : Names
  visited : Names
  /-- The cycles found, latest first. -/
  cycles : List (List String)

namespace CycleSearch

/-- The search that goes on from `root` with what earlier roots have found. -/
def start (g : CallGraph) (root : String) (visited : Names) (cycles : List (List String)) :
    CycleSearch where
  frames := [g.successors root]
  path := [root]
  onPath := (∅ : Names).insert root
  visited := visited.insert root
  cycles

/-- The part of a path from a node on, outermost first. -/
def closing (path : List String) (node : String) : List String :=
  node :: (path.takeWhile (· ≠ node)).reverse

/-- One step: look at the next successor of the innermost node, or leave the node if there is none.
`none` when the path is empty. -/
def step (g : CallGraph) (s : CycleSearch) : Option CycleSearch :=
  match s.frames with
  | [] => none
  | [] :: frames =>
    match s.path with
    | [] => some { s with frames }
    | node :: path => some { s with frames, path, onPath := s.onPath.erase node }
  | (next :: pending) :: frames =>
    let s := { s with frames := pending :: frames }
    if !s.visited.contains next then
      some {
        frames := g.successors next :: s.frames
        path := next :: s.path
        onPath := s.onPath.insert next
        visited := s.visited.insert next
        cycles := s.cycles }
    else if s.onPath.contains next then
      if s.path.contains next then some { s with cycles := closing s.path next :: s.cycles }
      else some s
    else some s

/-- The search after at most `limit` steps. -/
def run (g : CallGraph) : Nat → CycleSearch → CycleSearch
  | 0, s => s
  | limit + 1, s =>
    match s.step g with
    | some s => run g limit s
    | none => s

end CycleSearch

namespace CallGraph

/-- What is visited and found after the search from one more root. -/
def cyclesFrom (g : CallGraph) (found : Names × List (List String)) (root : String) :
    Names × List (List String) :=
  let (visited, cycles) := found
  if visited.contains root then (visited, cycles)
  else
    let s := (CycleSearch.start g root visited cycles).run g g.stepLimit
    (s.visited, s.cycles)

/-- The cycles closed by the calls back to functions on the path, in the order of their discovery.
-/
def closedCycles (g : CallGraph) : List (List String) :=
  (g.nodes.keys.foldl g.cyclesFrom (∅, [])).2.reverse

end CallGraph

end RiskGate

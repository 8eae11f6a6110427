import RiskGate.CallGraph.Basic

/-! # Call depth

The depth of a node is the length of the longest chain of calls from it, where a call back to a
function that is still being visited ends its branch. Depths are remembered, so the depth of a node
on a cycle may depend on where the search came from. The search keeps its own stack of frames and
goes on one step at a time.
-/

namespace RiskGate

/-- The depths found so far. -/
abbrev Depths := Std.ExtTreeMap String Count

/-- A node that is being visited. -/
structure OpenNode where
  node : String
  /-- The successors not looked at yet. -/
  pending : List String
  /-- The greatest depth found over the successors looked at. -/
  best : Count

/-- A search for the depth of a node. -/
structure DepthSearch where
  /-- The frames, innermost first. -/
  frames : List OpenNode
  /-- The nodes of the frames. -/
  visiting : Names
  depths : Depths

/-- What a step of a search leads to. -/
inductive DepthProgress where
  | running (search : DepthSearch)
  /-- The outermost frame is finished. -/
  | finished (depth : Count) (depths : Depths)
  /-- There was no frame to begin with. -/
  | idle (depths : Depths)

namespace OpenNode

/-- The frame of a node that has just been reached. -/
def start (g : CallGraph) (node : String) : OpenNode where
  node
  pending := g.successors node
  best := 0

/-- The frame after one of its successors turned out to have the given depth. -/
def extend (frame : OpenNode) (depth : Count) : OpenNode :=
  { frame with best := max frame.best (depth + 1) }

end OpenNode

namespace DepthSearch

/-- The search that starts at `root`. -/
def start (g : CallGraph) (root : String) (depths : Depths) : DepthSearch where
  frames := [.start g root]
  visiting := (∅ : Names).insert root
  depths

/-- One step: look at the next successor of the innermost frame, or finish the frame if there is
none. A successor with a known depth counts, one that is being visited does not, and any other gets
a frame of its own. -/
def step (g : CallGraph) (s : DepthSearch) : DepthProgress :=
  match s.frames with
  | [] => .idle s.depths
  | { node, pending := [], best } :: outer =>
    let visiting := s.visiting.erase node
    let depths := s.depths.insert node best
    match outer with
    | [] => .finished best depths
    | parent :: rest => .running { frames := parent.extend best :: rest, visiting, depths }
  | { node, pending := next :: pending, best } :: outer =>
    let frame : OpenNode := { node, pending, best }
    match s.depths[next]? with
    | some depth => .running { s with frames := frame.extend depth :: outer }
    | none =>
      if s.visiting.contains next then .running { s with frames := frame :: outer }
      else .running {
        s with
        frames := .start g next :: frame :: outer
        visiting := s.visiting.insert next }

/-- The depth of the outermost node and the depths known then, after at most `limit` steps. A search
that is not over by then, and one without frames, answers 0. -/
def run (g : CallGraph) : Nat → DepthSearch → Count × Depths
  | 0, s => (0, s.depths)
  | limit + 1, s =>
    match s.step g with
    | .running s => run g limit s
    | .finished depth depths => (depth, depths)
    | .idle depths => (0, depths)

end DepthSearch

namespace CallGraph

/-- More steps than a search can take: it looks at every edge at most once and finishes every node
at most once. -/
def stepLimit (g : CallGraph) : Nat := g.nodeCount + g.edgeCount + 1

/-- The depth of a node, and the depths known afterwards. -/
def depthOf (g : CallGraph) (root : String) (depths : Depths) : Count × Depths :=
  match depths[root]? with
  | some depth => (depth, depths)
  | none => (DepthSearch.start g root depths).run g g.stepLimit

/-- The greatest depth of the nodes, 0 without nodes, and the depths known afterwards. -/
def maxDepth (g : CallGraph) (depths : Depths) : Count × Depths :=
  g.nodes.keys.foldl
    (fun (greatest, depths) root =>
      let (depth, depths) := g.depthOf root depths
      (max greatest depth, depths))
    (0, depths)

end CallGraph

end RiskGate

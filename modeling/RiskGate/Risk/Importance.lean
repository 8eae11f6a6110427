import RiskGate.Binary64.Arithmetic
import RiskGate.Binary64.Decimal
import RiskGate.Json.Decode
import Std.Data.ExtTreeMap

/-! # Feature importance

How much each feature weighed in the classifier's answer, if the classifier says so.
-/

namespace RiskGate

/-- A weight for some features by name, in the order of the names. -/
abbrev Importance := Std.ExtTreeMap String Binary64

namespace Importance

/-- The weights of the pairs; the last of repeated names counts. -/
def ofPairs (pairs : List (String × Binary64)) : Importance :=
  pairs.foldl (fun importance (name, weight) => importance.insert name weight) ∅

/-- At most `limit` features with a weight greater than `minWeight`, heaviest first. Weights are
compared in the total order, and equal ones stay in the order of the names. -/
def top (importance : Importance) (limit : Nat) (minWeight : Binary64) : List (String × Binary64) :=
  ((importance.toList.filter fun (_, weight) => minWeight < weight).mergeSort
    fun a b => b.2.totalKey ≤ a.2.totalKey).take limit

/-- Weights on the wire. -/
def ofJson? (json : Json) : Option Importance := (json.members? some Json.double?).map ofPairs

/-- The wire form. -/
def toJson (importance : Importance) : Json :=
  .record (importance.toList.map fun (name, weight) => (name, .double weight))

end Importance

end RiskGate

import RiskGate.Json.Basic
import RiskGate.Profile.Basic
import RiskGate.Toml.Reader

/-! # Profiles in TOML

A profile document has two tables, `weights` and `thresholds`. Keys that are left out keep their
defaults, and keys that mean nothing here are ignored. An array in place of a table gives its fields
in order.
-/

namespace RiskGate

/-- A number: a float, or an integer as the nearest double. -/
def Toml.double? : Toml → Option Binary64
  | .float value => some value
  | .integer n => some (.ofInt n)
  | _ => none

/-- The numbers that a value gives to the named fields. A table gives those it has keys for, an
array the first ones, and a date, which has none of the keys, none. -/
def Toml.numbers? (fields : List (String × Binary64)) : Toml → Option (List Binary64)
  | .table entries =>
    fields.mapM fun (field, default) =>
      match entries.lookup field with
      | some value => value.double?
      | none => some default
  | .array items =>
    fields.zipIdx.mapM fun ((_, default), i) =>
      match items[i]? with
      | some value => value.double?
      | none => some default
  | .dateTime _ => some (fields.map (·.2))
  | _ => none

/-- The severities that a value gives. -/
def Severities.ofToml? (value : Toml) : Option Severities := do
  let numbers ← value.numbers?
    (Category.all.map fun c => (c.name, PerCategory.get Severities.default c))
  match numbers with
  | [reentrancy, uncheckedExternalCall, accessControl, dangerousConstruct] =>
    some { reentrancy, uncheckedExternalCall, accessControl, dangerousConstruct }
  | _ => none

/-- The thresholds that a value gives. -/
def Thresholds.ofToml? (value : Toml) : Option Thresholds := do
  let defaults : Thresholds := {}
  let numbers ← value.numbers?
    [("allow_below", defaults.allowBelow), ("block_at", defaults.blockAt)]
  match numbers with
  | [allowBelow, blockAt] => some { allowBelow, blockAt }
  | _ => none

namespace Profile

/-- The profile that a document describes, not validated yet. -/
def ofToml? (document : Toml) : Option Profile := do
  let weights ← match document.get? "weights" with
    | some value => Severities.ofToml? value
    | none => some .default
  let thresholds ← match document.get? "thresholds" with
    | some value => Thresholds.ofToml? value
    | none => some {}
  return { weights, thresholds }

/-- The valid profile that a document describes. What the reader says of a text that it does not
accept is given. -/
def ofTomlText (text : String) (complaint : String → Option String := fun _ => none) :
    Except ProfileError Profile := do
  match (Toml.ofText? text).bind ofToml? with
  | none => throw (@ProfileError.malformed (complaint text))
  | some profile =>
    profile.check
    return profile

end Profile

/-! ## Wire forms -/

/-- The wire form of severities. -/
def Severities.toJson (weights : Severities) : Json :=
  .record (Category.all.map fun c => (c.name, .double (PerCategory.get weights c)))

/-- The wire form of thresholds. -/
def Thresholds.toJson (thresholds : Thresholds) : Json :=
  .record [("allow_below", .double thresholds.allowBelow), ("block_at", .double thresholds.blockAt)]

/-- The wire form of a profile. -/
def Profile.toJson (profile : Profile) : Json :=
  .record [("weights", profile.weights.toJson), ("thresholds", profile.thresholds.toJson)]

end RiskGate

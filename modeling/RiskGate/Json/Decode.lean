import RiskGate.Json.Basic

/-! # From JSON to values

Decoders of the plain types, and of records: a record is an object with named members or an array of
its fields in order. Each decoder answers `none` where the document holds no value of its type.
-/

namespace RiskGate.Json

/-! ## Plain values -/

/-- The text of a string. -/
def text? : Json → Option String
  | .string text => text
  | _ => none

/-- A truth value. -/
def bool? : Json → Option Bool
  | .bool value => some value
  | _ => none

/-- A natural number below `limit`, written without point or power of ten. -/
def natBelow? (limit : Nat) : Json → Option Nat
  | .number n => n.toNat?.filter (· < limit)
  | _ => none

/-- A number as a double, if that is finite. -/
def double? : Json → Option Binary64
  | .number n => if n.toBinary64.isFinite then some n.toBinary64 else none
  | _ => none

/-- A list, element by element. -/
def list? {α : Type} (element : Json → Option α) : Json → Option (List α)
  | .array elements => elements.mapM element
  | _ => none

/-- A value or `null`. -/
def nullable? {α : Type} (present : Json → Option α) : Json → Option (Option α)
  | .null => some none
  | json => (present json).map some

/-- The members of an object as pairs of a name and a value, in the order of the document. -/
def members? {κ α : Type} (name : String → Option κ) (value : Json → Option α) :
    Json → Option (List (κ × α))
  | .object members => members.mapM fun (key, json) => do
      return (← key.bind name, ← value json)
  | _ => none

/-- One of the named values: its name as a string, or an object whose only member has that name and
the value `null`. -/
def named? {α : Type} (values : List (String × α)) : Json → Option α
  | .string (some name) => values.lookup name
  | .object [(some name, .null)] => values.lookup name
  | _ => none

/-! ## Records -/

/-- What a document holds for one field of a record. -/
inductive Slot where
  | given (value : Json)
  /-- An object without a member of that name. -/
  | unnamed
  /-- An array that ends before the field. -/
  | cutShort

/-- The fields of a record, each with what the document holds for it. -/
abbrev Slots := List (String × Slot)

/-- The values that the members give to a field. -/
def valuesOf (members : List (Option String × Json)) (field : String) : List Json :=
  members.filterMap fun (key, value) => if key = some field then some value else none

/-- What a document holds for each of the fields. An object may name a field once and may have any
other members, whatever they hold; an array may not be longer than the list of fields. -/
def slots? (fields : List String) : Json → Option Slots
  | .object members =>
    if members.all (·.1.isSome) then
      fields.mapM fun field =>
        match valuesOf members field with
        | [] => some (field, .unnamed)
        | [value] => some (field, .given value)
        | _ => none
    else none
  | .array elements =>
    if elements.length ≤ fields.length then
      some (fields.zipIdx.map fun (field, i) =>
        match elements[i]? with
        | some value => (field, .given value)
        | none => (field, .cutShort))
    else none
  | _ => none

namespace Slots

/-- What is held for a field. -/
def slot (slots : Slots) (field : String) : Slot := (slots.lookup field).getD .cutShort

/-- The value of a field that has to be there. -/
def required {α : Type} (slots : Slots) (field : String) (decode : Json → Option α) : Option α :=
  match slots.slot field with
  | .given value => decode value
  | _ => none

/-- The value of a field that may be left out. -/
def orDefault {α : Type} (slots : Slots) (field : String) (decode : Json → Option α) (default : α) :
    Option α :=
  match slots.slot field with
  | .given value => decode value
  | _ => some default

/-- The value of a field that may be `null`, or left out of an object but not of an array. -/
def optional {α : Type} (slots : Slots) (field : String) (decode : Json → Option α) :
    Option (Option α) :=
  match slots.slot field with
  | .given value => nullable? decode value
  | .unnamed => some none
  | .cutShort => none

end Slots

end RiskGate.Json

import RiskGate.Binary64.Basic

/-! # TOML values

What a TOML document holds, without regard to how it was written: whether a table was opened by a
header, by a dotted key or inline makes no difference here.
-/

namespace RiskGate

/-- A TOML value. No key occurs twice in a table. -/
inductive Toml where
  | boolean (value : Bool)
  | integer (value : Int)
  | float (value : Binary64)
  | string (text : String)
  | dateTime (text : String)
  | array (items : List Toml)
  | table (entries : List (String × Toml))

namespace Toml

instance : Inhabited Toml := ⟨.table []⟩

/-- The value of a key of a table. -/
def get? (key : String) : Toml → Option Toml
  | .table entries => entries.lookup key
  | _ => none

end Toml

end RiskGate

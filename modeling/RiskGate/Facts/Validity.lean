import RiskGate.Facts.Basic

/-! # Valid facts

A contract is fit for extraction if it and all its functions have names, and if call sites and state
writes stand in control-flow order. Equal positions are in order: several calls may share a
statement.
-/

namespace RiskGate

/-- What is wrong with a contract. -/
inductive Defect where
  | emptyContractId
  | emptyFunctionId (index : Nat)
  | unorderedCallSites (function : String)
  | unorderedStateWrites (function : String)
  deriving DecidableEq

/-- The text of a defect. -/
def Defect.message : Defect → String
  | .emptyContractId => "contract id is empty"
  | .emptyFunctionId index => "function at index " ++ toString index ++ " has an empty id"
  | .unorderedCallSites function =>
    "call sites of `" ++ function ++ "` are not in control-flow order"
  | .unorderedStateWrites function =>
    "state writes of `" ++ function ++ "` are not in control-flow order"

/-- A contract that cannot be extracted, and why. -/
structure ExtractionError where
  contract : String
  defect : Defect
  deriving DecidableEq

/-- The text of an extraction error. -/
def ExtractionError.message (e : ExtractionError) : String :=
  "feature extraction failed for contract `" ++ e.contract ++ "`: " ++ e.defect.message

/-- Whether no position is followed by a smaller one. -/
def inOrder : List UInt32 → Bool
  | p :: q :: rest => p ≤ q && inOrder (q :: rest)
  | _ => true

/-- What is wrong with the function at an index of its contract. -/
def ContractFunction.defect? (index : Nat) (f : ContractFunction) : Option Defect :=
  if f.id = "" then some (.emptyFunctionId index)
  else if !inOrder (f.callSites.map (·.position)) then some (.unorderedCallSites f.id)
  else if !inOrder (f.stateWrites.map (·.position)) then some (.unorderedStateWrites f.id)
  else none

/-- The first defect of a contract: an empty name, or the first defect of a function in the order of
declaration. -/
def Contract.defect? (c : Contract) : Option Defect :=
  if c.id = "" then some .emptyContractId
  else c.functions.zipIdx.findSome? fun (f, index) => f.defect? index

/-- Accepts a contract without defects. -/
def Contract.check (c : Contract) : Except ExtractionError Unit :=
  match c.defect? with
  | some defect => .error ⟨c.id, defect⟩
  | none => .ok ()

end RiskGate

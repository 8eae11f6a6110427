import RiskGate.Features.Extraction

/-! # Extraction contract by contract

Every concrete contract is extracted as a unit of its own, in the order of the list. Calls into
other contracts lead to placeholders, and a contract with a defect has an error of its own that
leaves the others alone.
-/

namespace RiskGate

/-- What came of one contract. -/
structure ContractFeatures where
  contract : String
  result : Except ExtractionError FeatureVector

/-- The features of every concrete contract on its own. -/
def eachContract (contracts : List Contract) : List ContractFeatures :=
  (concrete contracts).map fun c => { contract := c.id, result := FeatureVector.ofContracts [c] }

/-- The wire form of an outcome. -/
def ContractFeatures.toJson (outcome : ContractFeatures) : Json :=
  .record [
    ("contract", .text outcome.contract),
    ("result", match outcome.result with
      | .ok features => .record [("features", features.toJson)]
      | .error e => .record [("error", .text e.message)])]

end RiskGate

import RiskGate.Listing
import RiskGate.Risk.Category

/-! # Remediation

A fixed list of advice for every category, and the advice for what was detected in a unit.
-/

namespace RiskGate

/-- The advice when nothing was detected. -/
def adviceWithoutFindings : String :=
  "No specific recommendations. Continue monitoring for new vulnerabilities."

/-- A unit gets at most this many lines of advice. -/
def adviceLimit : Nat := 5

/-- The advice for a category. -/
def Category.advice : Category → List String
  | .reentrancy => [
    "Implement checks-effects-interactions pattern (update state before external calls)",
    "Add ReentrancyGuard modifier from OpenZeppelin",
    "Use transfer() instead of call() for ETH transfers",
    "Review all functions with external calls"]
  | .uncheckedExternalCall => [
    "Check return values of call(), send(), delegatecall()",
    "Use require() to handle failures explicitly",
    "Consider using OpenZeppelin's Address.sendValue()",
    "Add event logging for all external calls"]
  | .accessControl => [
    "Add onlyOwner or role-based access control modifiers",
    "Never use tx.origin for authentication (use msg.sender)",
    "Implement OpenZeppelin's Ownable or AccessControl",
    "Review constructor naming (should match contract name)"]
  | .dangerousConstruct => [
    "Replace tx.origin with msg.sender for authentication",
    "Remove selfdestruct() or add strict access controls",
    "Document why dangerous construct is necessary",
    "Consider alternative architectures"]

/-- The first lines of the advice for the categories in their order, each line once; one generic
line if there is no category. -/
def adviceFor (detected : List Category) : List String :=
  if detected.isEmpty then [adviceWithoutFindings]
  else (firstOccurrences (detected.flatMap (·.advice))).take adviceLimit

end RiskGate

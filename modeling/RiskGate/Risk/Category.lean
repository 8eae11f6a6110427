/-! # Vulnerability categories

The closed set of vulnerabilities that the classifier scores. Their canonical order is the order of
every sum and every list, so results do not depend on how the input was ordered.
-/

namespace RiskGate

/-- A class of vulnerabilities. -/
inductive Category where
  | reentrancy
  | uncheckedExternalCall
  | accessControl
  | dangerousConstruct
  deriving DecidableEq

namespace Category

/-- All categories in canonical order. -/
def all : List Category :=
  [.reentrancy, .uncheckedExternalCall, .accessControl, .dangerousConstruct]

/-- The name of a category. -/
def name : Category → String
  | .reentrancy => "reentrancy"
  | .uncheckedExternalCall => "unchecked_external_call"
  | .accessControl => "access_control"
  | .dangerousConstruct => "dangerous_construct"

/-- The categories by name. -/
def names : List (String × Category) := all.map fun c => (c.name, c)

end Category

/-- A value for every category. -/
structure PerCategory (α : Type) where
  reentrancy : α
  uncheckedExternalCall : α
  accessControl : α
  dangerousConstruct : α
  deriving DecidableEq

namespace PerCategory

variable {α β : Type}

/-- The value of a category. -/
def get (values : PerCategory α) : Category → α
  | .reentrancy => values.reentrancy
  | .uncheckedExternalCall => values.uncheckedExternalCall
  | .accessControl => values.accessControl
  | .dangerousConstruct => values.dangerousConstruct

/-- The values that a function gives to the categories. -/
def of (value : Category → α) : PerCategory α where
  reentrancy := value .reentrancy
  uncheckedExternalCall := value .uncheckedExternalCall
  accessControl := value .accessControl
  dangerousConstruct := value .dangerousConstruct

/-- The values with that of one category replaced. -/
def set (values : PerCategory α) (category : Category) (value : α) : PerCategory α :=
  of fun c => if c = category then value else values.get c

/-- The values in canonical order. -/
def toList (values : PerCategory α) : List α := Category.all.map values.get

/-- A function applied to every value. -/
def map (f : α → β) (values : PerCategory α) : PerCategory β := of fun c => f (values.get c)

end PerCategory

end RiskGate

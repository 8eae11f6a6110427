import RiskGate.Risk.Assessment
import RiskGate.Text.Causes

/-! # Policy profiles

A profile holds the severities that weigh the probabilities and the thresholds that turn a score
into a decision. A profile is valid if every severity is finite and not negative, at least one is
positive, and the thresholds are finite and in order.
-/

namespace RiskGate

/-- The scores at which the decision changes: below `allowBelow` a unit is allowed, from `blockAt`
on it is blocked. -/
structure Thresholds where
  allowBelow : Binary64 := 3
  blockAt : Binary64 := 7
  deriving DecidableEq

/-- Severities and thresholds. -/
structure Profile where
  weights : Severities := .default
  thresholds : Thresholds := {}
  deriving DecidableEq

/-- What is wrong with a profile. -/
inductive ProfileError where
  /-- The profile could not be read, for the reason that the operating system gives. -/
  | unreadable (path cause : String)
  /-- The document is not TOML, or a value has the wrong type, as its reader says, if it says
  anything. -/
  | malformed {cause : Option String}
  | invalidWeight (category : Category) (value : Binary64)
  | zeroTotalWeight
  | invalidThresholds (allowBelow blockAt : Binary64)
  deriving DecidableEq

namespace ProfileError

/-- The cause of the error, if it comes from somewhere else. -/
def cause? : ProfileError → Option String
  | .unreadable _ cause => some cause
  | @malformed cause => cause
  | _ => none

/-- The text of the error, which ends in the cause if there is one. -/
def message (e : ProfileError) : String :=
  match e with
  | .unreadable path _ => withCause ("failed to read profile " ++ path) e.cause?
  | .malformed => withCause "invalid TOML in profile" e.cause?
  | .invalidWeight category value =>
    "severity weight for `" ++ category.name ++ "` must be finite and non-negative, got " ++
      value.plain
  | .zeroTotalWeight => "severity weights sum to zero"
  | .invalidThresholds allowBelow blockAt =>
    "decision thresholds must be finite with allow_below <= block_at, got " ++ allowBelow.plain ++
      " / " ++ blockAt.plain

/-- The error and its cause. -/
def chain (e : ProfileError) : List String := e.message :: e.cause?.toList

end ProfileError

namespace Profile

/-- Whether a severity is acceptable. -/
def acceptsWeight (value : Binary64) : Bool := value.isFinite && !(value < 0)

/-- The first category in canonical order with an unacceptable severity. -/
def invalidWeight? (weights : Severities) : Option Category :=
  Category.all.find? fun c => !acceptsWeight (PerCategory.get weights c)

/-- Whether the thresholds are finite and in order. -/
def acceptsThresholds (thresholds : Thresholds) : Bool :=
  thresholds.allowBelow.isFinite && thresholds.blockAt.isFinite &&
    !(thresholds.blockAt < thresholds.allowBelow)

/-- Accepts a valid profile; otherwise names the first thing that is wrong with it. -/
def check (profile : Profile) : Except ProfileError Unit :=
  match invalidWeight? profile.weights with
  | some c => .error (.invalidWeight c (PerCategory.get profile.weights c))
  | none =>
    if Severities.total profile.weights ≤ 0 then .error .zeroTotalWeight
    else if !acceptsThresholds profile.thresholds then
      .error (.invalidThresholds profile.thresholds.allowBelow profile.thresholds.blockAt)
    else .ok ()

end Profile

end RiskGate

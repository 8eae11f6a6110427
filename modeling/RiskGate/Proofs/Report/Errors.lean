import RiskGate.Assess

/-! # What errors say

An error says what went wrong and where. If it was caused by something else, its text ends in that
cause, and the cause follows once more. The stage of an assessment comes in front of it all.

* `Quotes`: a text that ends in its cause, with the cause behind it;
* `FactsError.Tells`, `ProfileError.Tells`, `ExtractionError.Tells` and `ClassifierError.Tells`:
  what each kind of error says, outermost first;
* `AssessError.Tells` and `AssessError.tells_chain`: what the error of an assessment says.
-/

namespace RiskGate

/-! ## Causes -/

/-- A text that ends in its cause, and the cause once more. Where the cause is not known, the text
stands alone. -/
inductive Quotes (text : String) : Option String → List String → Prop
  | known (cause : String) : Quotes text (some cause) [text ++ ": " ++ cause, cause]
  | unknown : Quotes text none [text]

theorem quotes_withCause (text : String) (cause : Option String) :
    Quotes text cause (withCause text cause :: cause.toList) := by
  cases cause with
  | none => exact .unknown
  | some cause => exact .known cause

/-! ## Errors of the stages -/

/-- What an error about facts says. -/
inductive FactsError.Tells : FactsError → List String → Prop
  | unreadable {path cause : String} {texts : List String} :
    Quotes ("failed to read fact document " ++ path) (some cause) texts →
      Tells (.unreadable path cause) texts
  | malformed {path : String} {cause : Option String} {texts : List String} :
    Quotes ("malformed fact document " ++ path) cause texts → Tells (@malformed path cause) texts

theorem FactsError.tells_chain (e : FactsError) : e.Tells e.chain := by
  cases e with
  | unreadable path cause => exact .unreadable (quotes_withCause _ _)
  | malformed path => exact .malformed (quotes_withCause _ _)

/-- What an error about a profile says. -/
inductive ProfileError.Tells : ProfileError → List String → Prop
  | unreadable {path cause : String} {texts : List String} :
    Quotes ("failed to read profile " ++ path) (some cause) texts →
      Tells (.unreadable path cause) texts
  | malformed {cause : Option String} {texts : List String} :
    Quotes "invalid TOML in profile" cause texts → Tells (@malformed cause) texts
  | invalidWeight (category : Category) (value : Binary64) :
    Tells (.invalidWeight category value) ["severity weight for `" ++ category.name ++
      "` must be finite and non-negative, got " ++ value.plain]
  | zeroTotalWeight : Tells .zeroTotalWeight ["severity weights sum to zero"]
  | invalidThresholds (allowBelow blockAt : Binary64) :
    Tells (.invalidThresholds allowBelow blockAt)
      ["decision thresholds must be finite with allow_below <= block_at, got " ++
        allowBelow.plain ++ " / " ++ blockAt.plain]

theorem ProfileError.tells_chain (e : ProfileError) : e.Tells e.chain := by
  cases e with
  | unreadable path cause => exact .unreadable (quotes_withCause _ _)
  | malformed => exact .malformed (quotes_withCause _ _)
  | invalidWeight category value => exact .invalidWeight category value
  | zeroTotalWeight => exact .zeroTotalWeight
  | invalidThresholds allowBelow blockAt => exact .invalidThresholds allowBelow blockAt

/-- What a defect of a contract reads as. -/
inductive Defect.Reads : Defect → String → Prop
  | emptyContractId : Reads .emptyContractId "contract id is empty"
  | emptyFunctionId (index : Nat) :
    Reads (.emptyFunctionId index) ("function at index " ++ toString index ++ " has an empty id")
  | unorderedCallSites (function : String) : Reads (.unorderedCallSites function)
      ("call sites of `" ++ function ++ "` are not in control-flow order")
  | unorderedStateWrites (function : String) : Reads (.unorderedStateWrites function)
      ("state writes of `" ++ function ++ "` are not in control-flow order")

/-- What an error about a contract says. -/
inductive ExtractionError.Tells : ExtractionError → List String → Prop
  | failed {contract : String} {defect : Defect} {reason : String} : defect.Reads reason →
      Tells ⟨contract, defect⟩
        ["feature extraction failed for contract `" ++ contract ++ "`: " ++ reason]

theorem ExtractionError.tells_message (e : ExtractionError) : e.Tells [e.message] := by
  rcases e with ⟨contract, defect⟩
  cases defect with
  | emptyContractId => exact .failed .emptyContractId
  | emptyFunctionId index => exact .failed (.emptyFunctionId index)
  | unorderedCallSites function => exact .failed (.unorderedCallSites function)
  | unorderedStateWrites function => exact .failed (.unorderedStateWrites function)

/-- What an error of the classifier says. -/
inductive ClassifierError.Tells : ClassifierError → List String → Prop
  | unavailable (reason : String) :
    Tells (.unavailable reason) ["probability provider unavailable: " ++ reason]
  | malformed {path : String} {cause : Option String} {texts : List String} :
    Quotes ("malformed probability document " ++ path) cause texts →
      Tells (@malformed path cause) texts

theorem ClassifierError.tells_chain (e : ClassifierError) : e.Tells e.chain := by
  cases e with
  | unavailable reason => exact .unavailable reason
  | malformed path => exact .malformed (quotes_withCause _ _)

/-! ## Errors of assessments -/

/-- What the error of an assessment says: the stage, and what failed there. -/
inductive AssessError.Tells : AssessError → List String → Prop
  | profile {cause : ProfileError} {texts : List String} : cause.Tells texts →
      Tells (.profile cause) ("invalid policy profile" :: texts)
  | facts {cause : FactsError} {texts : List String} : cause.Tells texts →
      Tells (.facts cause) ("failed to obtain contract facts" :: texts)
  | extraction {cause : ExtractionError} {texts : List String} : cause.Tells texts →
      Tells (.extraction cause) ("feature extraction failed" :: texts)
  | classifier {cause : ClassifierError} {texts : List String} : cause.Tells texts →
      Tells (.classifier cause) ("probability provider failed" :: texts)

theorem AssessError.tells_chain (e : AssessError) : e.Tells e.chain := by
  cases e with
  | profile cause => exact .profile cause.tells_chain
  | facts cause => exact .facts cause.tells_chain
  | extraction cause => exact .extraction cause.tells_message
  | classifier cause => exact .classifier cause.tells_chain

end RiskGate

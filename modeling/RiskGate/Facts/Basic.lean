/-! # Contract facts

What a static-analysis front end reports about the contracts of a compilation unit. Facts are only
read here, never made. Order matters: functions stand in the order of their declaration, call sites
and state writes in control-flow order, and a position says where in the function they are.
-/

namespace RiskGate

/-- What a contract declaration declares. -/
inductive ContractKind where
  | concrete
  | interface
  | library
  deriving DecidableEq

/-- Who may call a function. -/
inductive Visibility where
  | publicly
  | externally
  | privately
  | internally
  deriving DecidableEq

/-- How a call site calls. -/
inductive CallKind where
  | internal
  | external
  | lowLevel
  | delegate
  | send
  | transfer
  deriving DecidableEq

/-- The kind of statement that encloses a call. -/
inductive StatementKind where
  | assignment
  | condition
  | expression
  | returned
  deriving DecidableEq

/-- Whether the statement looks at what the call returns. -/
def StatementKind.looksAtResult : StatementKind → Bool
  | .assignment | .condition => true
  | .expression | .returned => false

/-- A function of some contract. -/
structure FunctionName where
  contract : String
  function : String
  deriving DecidableEq

/-- The name by which the call graph knows a function. -/
def FunctionName.nodeName (ref : FunctionName) : String := ref.contract ++ "." ++ ref.function

/-- A call in the body of a function. -/
structure CallSite where
  kind : CallKind
  /-- The name of the called function or member. -/
  name : String := ""
  /-- The called function, where it is known. -/
  target : Option FunctionName := none
  /-- The source text of the call. -/
  expression : Option String := none
  statement : StatementKind := .expression
  position : UInt32
  deriving DecidableEq

/-- Whether the call leaves the contract. -/
def CallSite.leavesContract (site : CallSite) : Bool := site.kind ≠ .internal

/-- A write to a state variable. -/
structure StateWrite where
  name : String
  position : UInt32
  deriving DecidableEq

/-- A function of a contract. -/
structure ContractFunction where
  id : String
  visibility : Visibility
  isConstructor : Bool := false
  isFallback : Bool := false
  isReceive : Bool := false
  callSites : List CallSite := []
  stateWrites : List StateWrite := []
  /-- The names of the modifiers applied to the function. -/
  modifiers : List String := []
  /-- The names of the special variables that the function reads. -/
  specialReads : List String := []
  deriving DecidableEq

namespace ContractFunction

/-- Constructors and fallbacks take no part in counting calls and in ordering writes and calls. -/
def exemptFromCallCounts (f : ContractFunction) : Bool := f.isConstructor || f.isFallback

/-- Constructors, fallbacks and receive functions take no part in counting visibilities. -/
def exemptFromVisibilityCounts (f : ContractFunction) : Bool :=
  f.isConstructor || f.isFallback || f.isReceive

end ContractFunction

/-- A contract. -/
structure Contract where
  id : String
  kind : ContractKind
  functions : List ContractFunction := []
  /-- The names of the modifiers that the contract declares or inherits. -/
  modifiers : List String := []
  deriving DecidableEq

namespace Contract

/-- Interfaces and libraries take part in no analysis. -/
def isConcrete (c : Contract) : Bool := c.kind = .concrete

/-- The call-graph name of a function of the contract. -/
def nodeName (c : Contract) (f : ContractFunction) : String :=
  FunctionName.nodeName ⟨c.id, f.id⟩

end Contract

/-- The contracts that take part in analyses. -/
def concrete (contracts : List Contract) : List Contract :=
  contracts.filter (·.isConcrete)

end RiskGate

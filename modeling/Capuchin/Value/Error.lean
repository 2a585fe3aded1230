import Capuchin.Value.Basic

namespace Capuchin

-- The places of a tree that have to be filled before it can be evaluated.
inductive Slot where
  | letName | letValue | returnValue | condition | expression
  | leftOperand | rightOperand | operand | assignedValue
  | callee | argument | array | index | arrayElement | parameterName
  deriving DecidableEq, Repr, Inhabited

def Slot.name : Slot → String
  | letName => "Let name"
  | letValue => "Let value"
  | returnValue => "Return value"
  | condition => "Condition"
  | expression => "Expression"
  | leftOperand => "Left operand"
  | rightOperand => "Right operand"
  | operand => "Operand"
  | assignedValue => "Assigned value"
  | callee => "Callee"
  | argument => "Argument"
  | array => "Array"
  | index => "Index"
  | arrayElement => "Array element"
  | parameterName => "Parameter name"

-- What a builtin wants of an argument.
inductive Demand where
  | firstArray | secondFunction | string | stringOrArray
  deriving DecidableEq, Repr, Inhabited

def Demand.message : Demand → String
  | firstArray => "First argument must be an array"
  | secondFunction => "Second argument must be a function"
  | string => "Argument must be a string"
  | stringOrArray => "Argument must be a string or an array"

-- Why evaluation fails.
inductive RuntimeError where
  | unknownIdentifier (name : String)
  | operandMismatch (op : BinaryOp) (left right : Kind)
  | unknownBinary (op : BinaryOp) (kind : Kind)
  | unknownUnary (op : UnaryOp) (kind : Kind)
  | divisionByZero
  | conditionNotBoolean
  | notAFunction
  | notAnArray
  | indexNotInteger
  | indexOutOfBounds
  | invalidArrayElements
  | wrongArgumentCount (want got : Nat)
  | invalidArgument (demand : Demand)
  | arrayIsEmpty
  | conversionFailed (text : String) (target : Kind)
  | inputExhausted
  | missing (slot : Slot)
  | whileUnsupported
  deriving DecidableEq, Repr, Inhabited

namespace RuntimeError

def message : RuntimeError → String
  | unknownIdentifier name => "Unknown identifier " ++ name
  | operandMismatch op left right =>
    "Unknown operator " ++ op.symbol ++ " for " ++ left.name ++ " and " ++ right.name
  | unknownBinary op kind => "Unknown operator " ++ op.symbol ++ " for " ++ kind.name
  | unknownUnary op kind => "Unknown operator " ++ op.symbol ++ " for " ++ kind.name
  | divisionByZero => "Division by zero"
  | conditionNotBoolean => "Condition must be a boolean"
  | notAFunction => "Not a function"
  | notAnArray => "Not an array"
  | indexNotInteger => "Index must be an integer"
  | indexOutOfBounds => "Index out of bounds"
  | invalidArrayElements => "Array elements must be valid"
  | wrongArgumentCount want got =>
    "Wrong number of arguments: want=" ++ toString want ++ ", got=" ++ toString got
  | invalidArgument demand => demand.message
  | arrayIsEmpty => "Array is empty"
  | conversionFailed text target => "Cannot convert '" ++ text ++ "' to " ++ target.name
  | inputExhausted => "No more input to read"
  | missing slot => slot.name ++ " is missing"
  | whileUnsupported => "while statements are not supported"

end RuntimeError

-- Objects to a number of arguments that is not the wanted one.
def Arity.check (arity : Arity) (got : Nat) : Except RuntimeError Unit :=
  match arity with
  | .exactly want => if got = want then .ok () else .error (.wrongArgumentCount want got)
  | .any => .ok ()

theorem Arity.check_exactly {want got : Nat} :
    (Arity.exactly want).check got = .ok () ↔ got = want := by
  by_cases hgot : got = want <;> simp [Arity.check, hgot]

end Capuchin

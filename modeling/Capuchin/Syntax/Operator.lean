import Capuchin.Token.Basic

namespace Capuchin

inductive BinaryOp where
  | add | sub | mul | div
  | less | greater | lessEqual | greaterEqual | equal | notEqual
  | and | or
  deriving DecidableEq, Repr, Inhabited

inductive UnaryOp where
  | negate | not | plus
  deriving DecidableEq, Repr, Inhabited

namespace BinaryOp

def all : List BinaryOp :=
  [add, sub, mul, div, less, greater, lessEqual, greaterEqual, equal, notEqual, and, or]

theorem mem_all (op : BinaryOp) : op ∈ all := by cases op <;> decide

def symbol : BinaryOp → String
  | add => "+"
  | sub => "-"
  | mul => "*"
  | div => "/"
  | less => "<"
  | greater => ">"
  | lessEqual => "<="
  | greaterEqual => ">="
  | equal => "=="
  | notEqual => "!="
  | and => "&&"
  | or => "||"

-- The operator a token stands for between two operands.
def ofToken? : TokenKind → Option BinaryOp
  | .plus => some add
  | .minus => some sub
  | .asterisk => some mul
  | .slash => some div
  | .lessThan => some less
  | .greaterThan => some greater
  | .lessThanEquals => some lessEqual
  | .greaterThanEquals => some greaterEqual
  | .equals => some equal
  | .notEquals => some notEqual
  | .and => some and
  | .or => some or
  | _ => none

end BinaryOp

namespace UnaryOp

def all : List UnaryOp := [negate, not, plus]

theorem mem_all (op : UnaryOp) : op ∈ all := by cases op <;> decide

def symbol : UnaryOp → String
  | negate => "-"
  | not => "!"
  | plus => "+"

-- The operator a token stands for in front of an operand.
def ofToken? : TokenKind → Option UnaryOp
  | .minus => some negate
  | .bang => some not
  | .plus => some plus
  | _ => none

end UnaryOp

-- How tightly an operator holds its operands, from the loosest on.
inductive Precedence where
  | lowest | assign | logical | equals | lessGreater | sum | product | unary | call | index
  deriving DecidableEq, Repr, Inhabited

namespace Precedence

def rank : Precedence → Nat
  | lowest => 0
  | assign => 1
  | logical => 2
  | equals => 3
  | lessGreater => 4
  | sum => 5
  | product => 6
  | unary => 7
  | call => 8
  | index => 9

instance : Ord Precedence := ⟨fun a b => compare a.rank b.rank⟩

-- The precedence of a token behind an operand. Tokens that continue no expression have the
-- lowest.
def ofToken : TokenKind → Precedence
  | .assign => assign
  | .and | .or => logical
  | .equals | .notEquals => equals
  | .lessThan | .lessThanEquals | .greaterThan | .greaterThanEquals => lessGreater
  | .plus | .minus => sum
  | .asterisk | .slash => product
  | .openParen => call
  | .openBracket => index
  | _ => lowest

end Precedence

end Capuchin

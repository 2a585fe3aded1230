import Capuchin.Number.Float
import Capuchin.Syntax.Reader
import Capuchin.Syntax.Tree
import Capuchin.Token.Lexer

namespace Capuchin

namespace Parser

open Reader

-- A name. What stands in its place is reported and left.
def identifier : Reader (Option String) := do
  let token ← current
  match token.kind with
  | .identifier =>
    let _ ← advance
    return some token.literal
  | .eof =>
    report (.unexpectedEnd token)
    return none
  | _ =>
    report (.expectedToken .identifier token)
    return none

-- A number literal, already taken, with the value it was read as. A hole without one.
def literal (token : Token) (value : Option Expr) : Reader Expr :=
  match value with
  | some expr => return expr
  | none => do
    report (.invalidLiteral token)
    return .missing

-- The names between the parentheses of a function, with the closing one.
def parameters (bound : Nat) : Reader (List (Option String)) := items bound .closeParen identifier

-- A condition in its parentheses.
def parenthesised (condition : Reader Expr) : Reader Expr := do
  expect .openParen
  before .closeParen condition

-- The statements of a block whose opening brace is taken, with the closing brace.
def blockRest (bound : Nat) (statement : Reader Stmt) : Reader Block :=
  before .closeBrace (itemsUntil .closeBrace statement bound)

-- A block with both its braces.
def block (bound : Nat) (statement : Reader Stmt) : Reader Block := do
  expect .openBrace
  blockRest bound statement

section Expressions

-- What the parts below go on with: a whole expression, and an expression above a floor.
variable (whole : Reader Expr) (above : Precedence → Reader Expr)

-- Goes on behind `left` with the operator at the cursor.
def binary (op : BinaryOp) (left : Expr) : Reader Expr := do
  let token ← advance
  return .binary op left (← above (Precedence.ofToken token.kind))

-- Goes on behind `callee` with the parenthesis at the cursor.
def call (bound : Nat) (callee : Expr) : Reader Expr := do
  let _ ← advance
  return .call callee (← items bound .closeParen whole)

-- Goes on behind `array` with the bracket at the cursor.
def index (array : Expr) : Reader Expr := do
  let _ ← advance
  return .index array (← before .closeBracket whole)

-- A name, or the assignment to it if an `=` follows.
def nameOrAssignment : Reader Expr := do
  let token ← advance
  if ← isAt .assign then
    let _ ← advance
    return .assignment token.literal (← whole)
  else
    return .identifier token.literal

-- An expression in parentheses, which leave no trace.
def grouped : Reader Expr := do
  let _ ← advance
  before .closeParen whole

def arrayLiteral (bound : Nat) : Reader Expr := do
  let _ ← advance
  return .array (← items bound .closeBracket whole)

def functionLiteral (bound : Nat) (statement : Reader Stmt) : Reader Expr := do
  let _ ← advance
  expect .openParen
  let names ← parameters bound
  return .function names (← block bound statement)

def unary (op : UnaryOp) : Reader Expr := do
  let _ ← advance
  return .unary op (← above .unary)

-- An operand with the operators in front of it. `none` if there is none to go on with: a
-- semicolon, the end, or a token that starts no expression, which is passed over.
def operandWith (bound : Nat) (statement : Reader Stmt) : Reader (Option Expr) := do
  let token ← current
  match token.kind with
  | .eof =>
    report (.unexpectedEnd token)
    return none
  | .semiColon => return none
  | .integer =>
    let _ ← advance
    some <$> literal token ((Integer.read? token.literal).map .integer)
  | .float =>
    let _ ← advance
    some <$> literal token ((FloatText.read? token.literal).map .float)
  | .trueWord =>
    let _ ← advance
    return some (.boolean true)
  | .falseWord =>
    let _ ← advance
    return some (.boolean false)
  | .string =>
    let _ ← advance
    return some (.string token.literal)
  | .identifier => some <$> nameOrAssignment (above .lowest)
  | .openParen => some <$> grouped (above .lowest)
  | .openBracket => some <$> arrayLiteral (above .lowest) bound
  | .fnWord => some <$> functionLiteral bound statement
  | kind =>
    match UnaryOp.ofToken? kind with
    | some op => some <$> unary above op
    | none =>
      report (.unexpectedToken token)
      let _ ← advance
      return none

-- Goes on with operators, argument lists and indices behind `left`.
def operatorsWith (bound : Nat) (operators : Expr → Reader Expr) (floor : Precedence)
    (left : Expr) : Reader Expr := do
  let kind := (← current).kind
  if (Precedence.ofToken kind).rank ≤ floor.rank then
    return left
  else
    match kind, BinaryOp.ofToken? kind with
    | _, some op => binary above op left >>= operators
    | .openParen, none => call (above .lowest) bound left >>= operators
    | .openBracket, none => index (above .lowest) left >>= operators
    | _, none => return left

-- An operand, and what follows it.
def expressionWith (operand : Reader (Option Expr)) (operators : Expr → Reader Expr) :
    Reader Expr := do
  match ← operand with
  | none => return .missing
  | some left => operators left

end Expressions

section Statements

variable (whole : Reader Expr) (bound : Nat) (statement : Reader Stmt)

-- Without a value the statement ends where the value should have begun.
def letStatement : Reader Stmt := do
  let _ ← advance
  let name ← identifier
  expect .assign
  match ← whole with
  | .missing =>
    report (.expectedExpression (← current))
    return .bind name .missing
  | value =>
    expect .semiColon
    return .bind name value

def returnStatement : Reader Stmt := do
  let _ ← advance
  return .giveBack (← before .semiColon whole)

def ifStatement : Reader Stmt := do
  let _ ← advance
  let condition ← parenthesised whole
  let consequence ← block bound statement
  if ← isAt .elseWord then
    let _ ← advance
    return .ifElse condition consequence (← block bound statement)
  else
    return .ifThen condition consequence

def whileStatement : Reader Stmt := do
  let _ ← advance
  let condition ← parenthesised whole
  return .whileLoop condition (← block bound statement)

def blockStatement : Reader Stmt := do
  let _ ← advance
  return .block (← blockRest bound statement)

-- A definition, whose name is known to be there.
def definition : Reader Stmt := do
  let _ ← advance
  let name ← advance
  expect .openParen
  let names ← parameters bound
  return .define name.literal names (← block bound statement)

def expressionStatement : Reader Stmt := do
  return .expression (← before .semiColon whole)

-- A word that is followed by a name defines a function; otherwise `fn` begins an expression.
def statementWith : Reader Stmt := do
  match (← current).kind, (← following).kind with
  | .letWord, _ => letStatement whole
  | .returnWord, _ => returnStatement whole
  | .ifWord, _ => ifStatement whole bound statement
  | .whileWord, _ => whileStatement whole bound statement
  | .openBrace, _ => blockStatement bound statement
  | .fnWord, .identifier => definition bound statement
  | _, _ => expressionStatement whole

end Statements

-- Recursive descent for statements, precedence climbing for expressions.
--
-- The first argument bounds the depth of the recursion, and within it the length of lists. At
-- most two calls in a row take no token, so three units a token suffice: see `fuelFor`.
mutual

-- An expression whose operators hold tighter than `floor`.
def expression : Nat → Precedence → Reader Expr
  | 0, _ => return .missing
  | fuel + 1, floor => expressionWith (operand fuel) (operators fuel floor)

def operators : Nat → Precedence → Expr → Reader Expr
  | 0, _, left => return left
  | fuel + 1, floor, left =>
    operatorsWith (expression fuel) fuel (operators fuel floor) floor left

def operand : Nat → Reader (Option Expr)
  | 0 => return none
  | fuel + 1 => operandWith (expression fuel) fuel (statement fuel)

def statement : Nat → Reader Stmt
  | 0 => return .expression .missing
  | fuel + 1 => statementWith (expression fuel .lowest) fuel (statement fuel)

end

-- Enough depth for all that can stand between a cursor and the end.
def fuelFor (cursor : Cursor) : Nat := 3 * cursor.ahead.length + 3

end Parser

-- What a source text is read as: the program, with a hole for each missing part, and the
-- objections.
structure Parse where
  program : Program
  diagnostics : List Diagnostic

-- The statements from a cursor to the end.
def Cursor.parse (cursor : Cursor) : Reading Program :=
  let fuel := Parser.fuelFor cursor
  Reader.itemsUntil .eof (Parser.statement fuel) fuel cursor

def parse (source : String) : Parse :=
  let reading := (Cursor.ofSource source).parse
  { program := reading.value, diagnostics := reading.diagnostics }

end Capuchin

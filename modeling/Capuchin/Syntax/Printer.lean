import Capuchin.Number.Float
import Capuchin.Syntax.Tree

namespace Capuchin

namespace Printer

def commaSeparated (items : List String) : String := ", ".intercalate items

-- The text of a hole.
def hole : String := "null"

def name (name : Option String) : String := name.getD hole

def parameters (names : List (Option String)) : String :=
  "(" ++ commaSeparated (names.map name) ++ ")"

-- The text of a sequence of statements, given the texts of the statements.
def sequence (statements : List String) : String := " ".intercalate statements

def block (statements : List String) : String := "\x7b " ++ sequence statements ++ " \x7d"

end Printer

mutual

-- The text of an expression. Operators stand in parentheses with their operands.
def Expr.text : Expr → String
  | .missing => Printer.hole
  | .identifier name => name
  | .integer value => Integer.text value
  | .float value => FloatText.text value
  | .string literal => literal
  | .boolean value => if value then "true" else "false"
  | .array elements => "[" ++ Printer.commaSeparated (exprTexts elements) ++ "]"
  | .binary op left right => "(" ++ left.text ++ " " ++ op.symbol ++ " " ++ right.text ++ ")"
  | .unary op operand => "(" ++ op.symbol ++ operand.text ++ ")"
  | .call callee arguments =>
    callee.text ++ "(" ++ Printer.commaSeparated (exprTexts arguments) ++ ")"
  | .assignment name value => name ++ " = " ++ value.text
  | .index array position => array.text ++ "[" ++ position.text ++ "]"
  | .function parameters body =>
    "fn" ++ Printer.parameters parameters ++ " " ++ Printer.block (stmtTexts body)

def Stmt.text : Stmt → String
  | .bind name value => "let " ++ Printer.name name ++ " = " ++ value.text ++ ";"
  | .giveBack value => "return " ++ value.text ++ ";"
  | .ifThen condition consequence =>
    "if (" ++ condition.text ++ ") " ++ Printer.block (stmtTexts consequence)
  | .ifElse condition consequence alternative =>
    "if (" ++ condition.text ++ ") " ++ Printer.block (stmtTexts consequence) ++ " else " ++
      Printer.block (stmtTexts alternative)
  | .whileLoop condition body =>
    "while (" ++ condition.text ++ ") " ++ Printer.block (stmtTexts body)
  | .block body => Printer.block (stmtTexts body)
  | .define name parameters body =>
    "fn " ++ name ++ Printer.parameters parameters ++ " " ++ Printer.block (stmtTexts body)
  | .expression value => value.text ++ ";"

def exprTexts : List Expr → List String
  | [] => []
  | expr :: rest => expr.text :: exprTexts rest

def stmtTexts : List Stmt → List String
  | [] => []
  | stmt :: rest => stmt.text :: stmtTexts rest

end

-- The text of a whole program.
def programText (program : Program) : String := Printer.sequence (stmtTexts program)

theorem exprTexts_eq_map (exprs : List Expr) : exprTexts exprs = exprs.map Expr.text := by
  induction exprs with
  | nil => rfl
  | cons expr rest ih => simp [exprTexts, ih]

theorem stmtTexts_eq_map (stmts : List Stmt) : stmtTexts stmts = stmts.map Stmt.text := by
  induction stmts with
  | nil => rfl
  | cons stmt rest ih => simp [stmtTexts, ih]

end Capuchin

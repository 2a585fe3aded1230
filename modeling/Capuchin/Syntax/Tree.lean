import Capuchin.Syntax.Operator

namespace Capuchin

-- The syntax tree. Where the source leaves a hole, the tree holds `Expr.missing`, and `none`
-- for the name of a binding or of a parameter. Assignments, names of definitions and string
-- literals keep the text of the source.
mutual

inductive Expr where
  | missing
  | identifier (name : String)
  | integer (value : Int32)
  | float (value : Float32)
  | string (literal : String)
  | boolean (value : Bool)
  | array (elements : List Expr)
  | binary (op : BinaryOp) (left right : Expr)
  | unary (op : UnaryOp) (operand : Expr)
  | call (callee : Expr) (arguments : List Expr)
  | assignment (name : String) (value : Expr)
  | index (array position : Expr)
  | function (parameters : List (Option String)) (body : List Stmt)

inductive Stmt where
  | bind (name : Option String) (value : Expr)
  | giveBack (value : Expr)
  | ifThen (condition : Expr) (consequence : List Stmt)
  | ifElse (condition : Expr) (consequence alternative : List Stmt)
  | whileLoop (condition : Expr) (body : List Stmt)
  | block (body : List Stmt)
  | define (name : String) (parameters : List (Option String)) (body : List Stmt)
  | expression (value : Expr)

end

instance : Inhabited Expr := ⟨.missing⟩

instance : Inhabited Stmt := ⟨.expression .missing⟩

abbrev Block := List Stmt

abbrev Program := List Stmt

-- The text between the quotes of a string literal. A literal whose last quote is missing, or
-- is its first one too, is taken as it stands. Nothing is unescaped.
def stringContent (literal : String) : String :=
  match literal.toList with
  | '"' :: rest =>
    if rest.getLast? = some '"' then String.ofList rest.dropLast else literal
  | _ => literal

end Capuchin

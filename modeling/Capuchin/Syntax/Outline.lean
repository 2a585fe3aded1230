import Capuchin.Syntax.Printer

namespace Capuchin

namespace Outline

-- The name in a heading. An absent one is a question mark.
def name (name : Option String) : String := name.getD "?"

-- A heading followed by names.
def headed (heading : String) (names : List String) : String := " ".intercalate (heading :: names)

end Outline

mutual

-- The nodes of a tree in pre-order, each as one line. A hole is a node of its own.
def Expr.outline : Expr → List String
  | .missing => ["Missing"]
  | .identifier name => ["Identifier " ++ name]
  | .integer value => ["Integer " ++ Integer.text value]
  | .float value => ["Float " ++ FloatText.text value]
  | .string literal => ["String " ++ literal]
  | .boolean value => ["Boolean " ++ (if value then "true" else "false")]
  | .array elements => ("Array " ++ toString elements.length) :: exprOutlines elements
  | .binary op left right => ("Binary " ++ op.symbol) :: (left.outline ++ right.outline)
  | .unary op operand => ("Unary " ++ op.symbol) :: operand.outline
  | .call callee arguments =>
    ("Call " ++ toString arguments.length) :: (callee.outline ++ exprOutlines arguments)
  | .assignment name value => ("Assignment " ++ name) :: value.outline
  | .index array position => "Index" :: (array.outline ++ position.outline)
  | .function parameters body =>
    Outline.headed "Function" (parameters.map Outline.name) ::
      ("Block " ++ toString body.length) :: stmtOutlines body

def Stmt.outline : Stmt → List String
  | .bind name value => ("Let " ++ Outline.name name) :: value.outline
  | .giveBack value => "Return" :: value.outline
  | .ifThen condition consequence =>
    "If" :: (condition.outline ++
      ("Block " ++ toString consequence.length) :: stmtOutlines consequence)
  | .ifElse condition consequence alternative =>
    "IfElse" :: (condition.outline ++
      ("Block " ++ toString consequence.length) :: (stmtOutlines consequence ++
        ("Block " ++ toString alternative.length) :: stmtOutlines alternative))
  | .whileLoop condition body =>
    "While" :: (condition.outline ++ ("Block " ++ toString body.length) :: stmtOutlines body)
  | .block body => ("Block " ++ toString body.length) :: stmtOutlines body
  | .define name parameters body =>
    Outline.headed "FunctionDef" (name :: parameters.map Outline.name) ::
      ("Block " ++ toString body.length) :: stmtOutlines body
  | .expression value => "Expression" :: value.outline

def exprOutlines : List Expr → List String
  | [] => []
  | expr :: rest => expr.outline ++ exprOutlines rest

def stmtOutlines : List Stmt → List String
  | [] => []
  | stmt :: rest => stmt.outline ++ stmtOutlines rest

end

def programOutline (program : Program) : List String :=
  ("Program " ++ toString program.length) :: stmtOutlines program

end Capuchin

import Capuchin.Proofs.Number.ReadBack
import Capuchin.Syntax.Tree

-- The nodes of a tree, and what a node is on its own.
namespace Capuchin

inductive Node where
  | expr (expr : Expr)
  | stmt (stmt : Stmt)

mutual

-- A tree and all trees inside it.
def Expr.nodes : Expr → List Node
  | .missing => [.expr .missing]
  | .identifier name => [.expr (.identifier name)]
  | .integer value => [.expr (.integer value)]
  | .float value => [.expr (.float value)]
  | .string literal => [.expr (.string literal)]
  | .boolean value => [.expr (.boolean value)]
  | .array elements => .expr (.array elements) :: exprNodes elements
  | .binary op left right => .expr (.binary op left right) :: (left.nodes ++ right.nodes)
  | .unary op operand => .expr (.unary op operand) :: operand.nodes
  | .call callee arguments =>
    .expr (.call callee arguments) :: (callee.nodes ++ exprNodes arguments)
  | .assignment name value => .expr (.assignment name value) :: value.nodes
  | .index array position => .expr (.index array position) :: (array.nodes ++ position.nodes)
  | .function parameters body => .expr (.function parameters body) :: stmtNodes body

def Stmt.nodes : Stmt → List Node
  | .bind name value => .stmt (.bind name value) :: value.nodes
  | .giveBack value => .stmt (.giveBack value) :: value.nodes
  | .ifThen condition consequence =>
    .stmt (.ifThen condition consequence) :: (condition.nodes ++ stmtNodes consequence)
  | .ifElse condition consequence alternative =>
    .stmt (.ifElse condition consequence alternative) ::
      (condition.nodes ++ stmtNodes consequence ++ stmtNodes alternative)
  | .whileLoop condition body =>
    .stmt (.whileLoop condition body) :: (condition.nodes ++ stmtNodes body)
  | .block body => .stmt (.block body) :: stmtNodes body
  | .define name parameters body => .stmt (.define name parameters body) :: stmtNodes body
  | .expression value => .stmt (.expression value) :: value.nodes

def exprNodes : List Expr → List Node
  | [] => []
  | expr :: rest => expr.nodes ++ exprNodes rest

def stmtNodes : List Stmt → List Node
  | [] => []
  | stmt :: rest => stmt.nodes ++ stmtNodes rest

end

def Program.nodes (program : Program) : List Node := stmtNodes program

def Expr.isAssignment : Expr → Bool
  | .assignment _ _ => true
  | _ => false

namespace Node

-- No part of the node is missing.
def isWhole : Node → Bool
  | .expr .missing => false
  | .expr (.function parameters _) => parameters.all Option.isSome
  | .stmt (.bind name _) => name.isSome
  | .stmt (.define _ parameters _) => parameters.all Option.isSome
  | _ => true

-- A float lies between two powers of ten, or is zero.
def isFloatBetween (least first : Int) : Node → Bool
  | .expr (.float value) => FloatText.Between least first value
  | _ => true

-- No assignment stands in front of an operator, an argument list or an index.
def isUnassigned : Node → Bool
  | .expr (.binary _ left _) => !left.isAssignment
  | .expr (.call callee _) => !callee.isAssignment
  | .expr (.index array _) => !array.isAssignment
  | _ => true

end Node

end Capuchin

import Capuchin.Syntax.Tree
import Capuchin.Value.Error

-- What is missing in a tree.
namespace Capuchin

-- A name that is not there.
def nameGaps (slot : Slot) (names : List (Option String)) : List Slot :=
  (names.filter Option.isNone).map fun _ => slot

-- The names of a list are all there unless one of them is a gap.
theorem mem_nameGaps_of_mapM_eq_none {names : List (Option String)} (h : names.mapM id = none)
    (slot : Slot) : slot ∈ nameGaps slot names := by
  induction names with
  | nil => simp at h
  | cons name rest ih =>
      cases name with
      | none => simp [nameGaps]
      | some name =>
          cases hr : rest.mapM id with
          | none => simpa [nameGaps] using ih hr
          | some _ => simp [List.mapM_cons, hr] at h

-- The slots of a tree that nothing fills, at any depth, and the bodies of functions are looked
-- through as well. The tree itself stands in a slot.
mutual

def Expr.gaps (slot : Slot) : Expr → List Slot
  | .missing => [slot]
  | .array elements => exprGaps .arrayElement elements
  | .binary _ left right => left.gaps .leftOperand ++ right.gaps .rightOperand
  | .unary _ operand => operand.gaps .operand
  | .call callee arguments => callee.gaps .callee ++ exprGaps .argument arguments
  | .assignment _ value => value.gaps .assignedValue
  | .index array position => array.gaps .array ++ position.gaps .index
  | .function parameters body => nameGaps .parameterName parameters ++ stmtGaps body
  | _ => []

def Stmt.gaps : Stmt → List Slot
  | .bind name value => nameGaps .letName [name] ++ value.gaps .letValue
  | .giveBack value => value.gaps .returnValue
  | .ifThen condition consequence => condition.gaps .condition ++ stmtGaps consequence
  | .ifElse condition consequence alternative =>
    condition.gaps .condition ++ (stmtGaps consequence ++ stmtGaps alternative)
  | .whileLoop condition body => condition.gaps .condition ++ stmtGaps body
  | .block body => stmtGaps body
  | .define _ parameters body => nameGaps .parameterName parameters ++ stmtGaps body
  | .expression value => value.gaps .expression

def exprGaps (slot : Slot) : List Expr → List Slot
  | [] => []
  | expr :: rest => expr.gaps slot ++ exprGaps slot rest

def stmtGaps : List Stmt → List Slot
  | [] => []
  | stmt :: rest => stmt.gaps ++ stmtGaps rest

end

def Program.gaps (program : Program) : List Slot := stmtGaps program

-- The slots that a semicolon may stand for.
def Slot.isOptional : Slot → Bool
  | .expression | .returnValue | .rightOperand | .operand | .assignedValue => true
  | _ => false

-- All gaps are in slots of a kind.
def Confined (allowed : Slot → Prop) (gaps : List Slot) : Prop := ∀ slot ∈ gaps, allowed slot

section Confined

variable {allowed : Slot → Prop} {u v : List Slot}

@[simp] theorem confined_nil : Confined allowed [] := by simp [Confined]

@[simp] theorem confined_singleton {slot : Slot} : Confined allowed [slot] ↔ allowed slot := by
  simp [Confined]

@[simp] theorem confined_append :
    Confined allowed (u ++ v) ↔ Confined allowed u ∧ Confined allowed v :=
  List.forall_mem_append

end Confined

end Capuchin

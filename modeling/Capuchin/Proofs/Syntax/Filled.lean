import Capuchin.Proofs.Syntax.Gaps
import Capuchin.Proofs.Syntax.Spelling

-- What cannot be missing in a tree that was read without objections.
namespace Capuchin

open Grammar (Ending)

theorem Expr.gaps_of_ne_missing {expr : Expr} (h : expr ≠ .missing) (slot other : Slot) :
    expr.gaps slot = expr.gaps other := by
  cases expr with
  | missing => contradiction
  | _ => simp [gaps]

-- A part of a tree has optional gaps only. A cut expression may be missing itself.
def Phrase.Filled : Phrase → Prop
  | .statements body | .block body => Confined (·.isOptional) (stmtGaps body)
  | .statement stmt => Confined (·.isOptional) stmt.gaps
  | .names parameters | .furtherNames parameters => ∀ slot, nameGaps slot parameters = []
  | .expressions exprs | .furtherExpressions exprs =>
    ∀ slot, Confined (·.isOptional) (exprGaps slot exprs)
  | .expression ending expr =>
    ∀ slot, (ending = .cut → slot.isOptional) → Confined (·.isOptional) (expr.gaps slot)

theorem Spelled.filled {phrase : Phrase} {w : List Token} (h : Spelled phrase w) :
    phrase.Filled := by
  induction h with
  | noStatements | noNames | noFurtherNames | noExpressions | noFurtherExpressions =>
      simp [Phrase.Filled, stmtGaps, nameGaps, exprGaps]
  | statements _ _ ihs ihr => simpa [Phrase.Filled, stmtGaps] using ⟨ihs, ihr⟩
  | bind _ _ _ _ hne _ ih =>
      have hvalue := ih .expression fun _ => rfl
      rw [Expr.gaps_of_ne_missing hne _ .letValue] at hvalue
      simpa [Phrase.Filled, Stmt.gaps, nameGaps] using hvalue
  | giveBack _ _ _ ih => exact ih .returnValue fun _ => rfl
  | ifThen _ _ _ _ _ ihc ihb =>
      simpa [Phrase.Filled, Stmt.gaps] using ⟨ihc .condition (by simp), ihb⟩
  | ifElse _ _ _ _ _ _ _ ihc ihb iha =>
      simpa [Phrase.Filled, Stmt.gaps] using ⟨ihc .condition (by simp), ihb, iha⟩
  | whileLoop _ _ _ _ _ ihc ihb =>
      simpa [Phrase.Filled, Stmt.gaps] using ⟨ihc .condition (by simp), ihb⟩
  | blockStatement _ ih => exact ih
  | define _ _ _ _ _ _ ihn ihb =>
      simpa [Phrase.Filled, Stmt.gaps, ihn .parameterName] using ihb
  | expressionStatement _ _ ih => exact ih .expression fun _ => rfl
  | block _ _ _ ih => exact ih
  | names _ _ ih | furtherNames _ _ _ ih => exact fun slot => by simpa [nameGaps] using ih slot
  | expressions _ _ ihe ihr | furtherExpressions _ _ _ ihe ihr =>
      intro slot
      simpa [exprGaps] using ⟨ihe slot (by simp), ihr slot⟩
  | missing => exact fun slot hslot => by simpa [Expr.gaps] using hslot rfl
  | identifier | integer | float | string | trueWord | falseWord =>
      exact fun slot _ => by simp [Expr.gaps]
  | array _ _ _ ih => exact fun slot _ => ih .arrayElement
  | binary _ _ _ ihl ihr =>
      intro slot _
      simpa [Expr.gaps] using ⟨ihl .leftOperand (by simp), ihr .rightOperand fun _ => rfl⟩
  | unary _ _ ih => exact fun slot _ => ih .operand fun _ => rfl
  | call _ _ _ _ ihc iha =>
      intro slot _
      simpa [Expr.gaps] using ⟨ihc .callee (by simp), iha .argument⟩
  | index _ _ _ _ iha ihp =>
      intro slot _
      simpa [Expr.gaps] using ⟨iha .array (by simp), ihp .index (by simp)⟩
  | assignment _ _ _ ih => exact fun slot _ => ih .assignedValue fun _ => rfl
  | function _ _ _ _ _ ihn ihb =>
      intro slot _
      simpa [Phrase.Filled, Expr.gaps, ihn .parameterName] using ihb
  | grouped _ _ _ ih => exact ih

-- Without objections a program lacks nothing but what a semicolon may stand for.
theorem parse_gaps {source : String} (h : (parse source).diagnostics = []) :
    Confined (·.isOptional) (parse source).program.gaps :=
  (parse_spelled h).filled

end Capuchin

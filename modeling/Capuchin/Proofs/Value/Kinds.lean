import Capuchin.Value.Operation
import Mathlib

-- Whether an operator is defined, and the kind of what it gives, depend on the kinds of the
-- operands alone.
namespace Capuchin

namespace Kind

-- The operators on two operands of a kind that give a value of this kind again.
def arithmetic : Kind → List BinaryOp
  | integer | float => [.add, .sub, .mul, .div]
  | string => [.add]
  | _ => []

-- The operators on two operands of a kind that give a boolean.
def tests : Kind → List BinaryOp
  | integer | float | string => [.less, .greater, .lessEqual, .greaterEqual, .equal, .notEqual]
  | boolean => [.equal, .notEqual, .and, .or]
  | array => [.equal, .notEqual]
  | _ => []

end Kind

-- The kind of what an operator gives, or `none` where it is not defined.
def BinaryOp.kind? (op : BinaryOp) (left right : Kind) : Option Kind :=
  if left ≠ right then none
  else if op ∈ left.arithmetic then some left
  else if op ∈ left.tests then some .boolean
  else none

def UnaryOp.kind? : UnaryOp → Kind → Option Kind
  | .negate, .integer | .plus, .integer => some .integer
  | .negate, .float | .plus, .float => some .float
  | .negate, .boolean | .plus, .boolean => some .null
  | .not, .boolean | .not, .array => some .boolean
  | _, _ => none

-- The outcome is in keeping with a kind, or with there being none: a value is of that kind, and
-- where there is a kind a failure has an admitted reason.
def Fits (kind : Option Kind) (admitted : RuntimeError → Prop) :
    Except RuntimeError Value → Prop
  | .ok value => kind = some value.kind
  | .error error => ∀ k, kind = some k → admitted error

theorem Fits.mono {kind : Option Kind} {admitted wider : RuntimeError → Prop}
    {result : Except RuntimeError Value} (h : Fits kind admitted result)
    (hw : ∀ error, admitted error → wider error) : Fits kind wider result := by
  cases result with
  | ok value => exact h
  | error error => exact fun k hk => hw error (h k hk)

-- Outcomes one behind the other: the second is not reached if there is no kind for the first.
theorem Fits.bind {kind : Option Kind} {kinds : Kind → Option Kind}
    {admitted wider : RuntimeError → Prop} {result : Except RuntimeError Value}
    {next : Value → Except RuntimeError Value} (h : Fits kind admitted result)
    (hw : ∀ error, admitted error → wider error)
    (hnext : ∀ value, result = .ok value → Fits (kinds value.kind) wider (next value)) :
    Fits (kind.bind kinds) wider (result.bind next) := by
  cases result with
  | ok value =>
      rw [show kind = some value.kind from h]
      exact hnext value rfl
  | error error =>
      intro k hk
      obtain ⟨first, hfirst, -⟩ := Option.bind_eq_some_iff.mp hk
      exact hw error (h first hfirst)

theorem fits_error_of_none {admitted : RuntimeError → Prop} {error : RuntimeError} :
    Fits none admitted (.error error) := nofun

-- The only failure of an operator on operands that it is defined on.
def Undivided (op : BinaryOp) (left right : Value) (error : RuntimeError) : Prop :=
  error = .divisionByZero ∧ op = .div ∧ left.kind = .integer ∧ right = .integer 0

theorem BinaryOp.apply_fits_of_kind_ne {op : BinaryOp} {left right : Value}
    (h : left.kind ≠ right.kind) {admitted : RuntimeError → Prop} :
    Fits (op.kind? left.kind right.kind) admitted (op.apply left right) := by
  rw [kind?, if_pos h]
  cases left <;> cases right <;>
    first
      | exact fits_error_of_none
      | exact absurd rfl h

theorem onIntegers_fits (op : BinaryOp) (a b : Int32) :
    Fits (op.kind? .integer .integer) (Undivided op (.integer a) (.integer b))
      (Operation.onIntegers op a b) := by
  cases op with
  | div =>
      rw [Operation.onIntegers]
      split
      · rename_i hzero
        exact fun _ _ => ⟨rfl, rfl, rfl, congrArg Value.integer hzero⟩
      · rfl
  | _ =>
      first
        | rfl
        | exact fits_error_of_none

theorem BinaryOp.apply_fits (op : BinaryOp) (left right : Value) :
    Fits (op.kind? left.kind right.kind) (Undivided op left right) (op.apply left right) := by
  by_cases hkind : left.kind = right.kind
  · cases left with
    | integer a =>
        cases right with
        | integer b => exact onIntegers_fits op a b
        | _ => exact Kind.noConfusion hkind
    | _ =>
        cases right <;>
          first
            | exact Kind.noConfusion hkind
            | cases op <;>
                first
                  | rfl
                  | exact fits_error_of_none
  · exact apply_fits_of_kind_ne hkind

theorem UnaryOp.apply_fits (op : UnaryOp) (operand : Value) {admitted : RuntimeError → Prop} :
    Fits (op.kind? operand.kind) admitted (op.apply operand) := by
  cases op <;> cases operand <;>
    first
      | rfl
      | exact fits_error_of_none

end Capuchin

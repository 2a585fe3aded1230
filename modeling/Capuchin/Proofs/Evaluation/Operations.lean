import Capuchin.Proofs.Evaluation.Steps
import Capuchin.Proofs.Value.Kinds
import Capuchin.Evaluation.Session
import Mathlib

-- Expressions of literals and operators: their kinds can be told without evaluating them, and
-- only a division by zero is in the way of a value of that kind.
namespace Capuchin

open Eval

-- Expressions of literals, array literals and operators, without holes.
inductive Expr.IsOperation : Expr → Prop
  | integer (value : Int32) : IsOperation (.integer value)
  | float (value : Float32) : IsOperation (.float value)
  | string (literal : String) : IsOperation (.string literal)
  | boolean (value : Bool) : IsOperation (.boolean value)
  | array {elements : List Expr} (h : ∀ element ∈ elements, IsOperation element) :
      IsOperation (.array elements)
  | binary (op : BinaryOp) {left right : Expr} (hl : IsOperation left) (hr : IsOperation right) :
      IsOperation (.binary op left right)
  | unary (op : UnaryOp) {operand : Expr} (h : IsOperation operand) :
      IsOperation (.unary op operand)

mutual

-- The kind of an expression, or `none` if an operator in it is not defined on its operands.
def Expr.kind? : Expr → Option Kind
  | .integer _ => some .integer
  | .float _ => some .float
  | .string _ => some .string
  | .boolean _ => some .boolean
  | .array elements => if allKinded elements then some .array else none
  | .binary op left right => left.kind?.bind fun a => right.kind?.bind fun b => op.kind? a b
  | .unary op operand => operand.kind?.bind fun a => op.kind? a
  | _ => none

def allKinded : List Expr → Bool
  | [] => true
  | expr :: rest => expr.kind?.isSome && allKinded rest

end

theorem allKinded_iff {exprs : List Expr} :
    allKinded exprs ↔ ∀ expr ∈ exprs, expr.kind?.isSome := by
  induction exprs with
  | nil => simp [allKinded]
  | cons expr rest ih => rw [allKinded, Bool.and_eq_true, ih, List.forall_mem_cons]

section

variable (call : Caller) (frame : Nat) (machine : Machine)

-- A division of integers by zero in an expression, in front of which nothing fails, and the error
-- that comes of it. An array literal takes the error over.
inductive Expr.DividesByZero : Expr → RuntimeError → Prop
  | division {left right : Expr} {dividend : Int32}
      (hl : left.eval call frame .leftOperand machine = .ok (.integer dividend) machine)
      (hr : right.eval call frame .rightOperand machine = .ok (.integer 0) machine) :
      DividesByZero (.binary .div left right) .divisionByZero
  | left {op : BinaryOp} {left right : Expr} {error : RuntimeError}
      (h : DividesByZero left error) : DividesByZero (.binary op left right) error
  | right {op : BinaryOp} {left right : Expr} {value : Value} {error : RuntimeError}
      (hl : left.eval call frame .leftOperand machine = .ok value machine)
      (h : DividesByZero right error) : DividesByZero (.binary op left right) error
  | operand {op : UnaryOp} {operand : Expr} {error : RuntimeError}
      (h : DividesByZero operand error) : DividesByZero (.unary op operand) error
  | element {elements : List Expr} {element : Expr} {error : RuntimeError}
      (hmem : element ∈ elements) (h : DividesByZero element error) :
      DividesByZero (.array elements) .invalidArrayElements

-- Evaluation comes to a result that does not depend on the place of the expression, and leaves
-- the machine as it is.
def Expr.Settles (expr : Expr) (result : Except RuntimeError Value) : Prop :=
  expr ≠ .missing ∧ ∀ slot, expr.eval call frame slot machine = ofExcept result machine

end

section

variable {call : Caller} {frame : Nat} {machine : Machine}

theorem attempt_ofExcept (result : Except RuntimeError Value) :
    attempt (ofExcept result) machine =
      .ok result.toOption machine := by
  rw [attempt_run]
  cases result <;> rfl

theorem evalElements_cons {element : Expr} {rest : List Expr}
    {result : Except RuntimeError Value} (h : element.Settles call frame machine result) :
    evalElements call frame (element :: rest) machine =
      (do
        let values ← evalElements call frame rest
        return result.toOption.bind
          fun first => values.map (first :: ·)) machine := by
  rw [evalElements, bind_run, attempt_run, h.2, ← attempt_run, attempt_ofExcept]
  exact h.1

-- All elements have values, or one of them fails.
theorem evalElements_of_settles {elements : List Expr}
    (h : ∀ element ∈ elements, ∃ result, element.Settles call frame machine result) :
    (∃ values, evalElements call frame elements machine = .ok (some values) machine ∧
      ∀ element ∈ elements, ∃ value, element.Settles call frame machine (.ok value)) ∨
    (evalElements call frame elements machine = .ok none machine ∧
      ∃ element ∈ elements, ∃ error, element.Settles call frame machine (.error error)) := by
  induction elements with
  | nil => exact .inl ⟨[], rfl, List.forall_mem_nil _⟩
  | cons element rest ih =>
      obtain ⟨⟨result, hresult⟩, hrest⟩ := List.forall_mem_cons.mp h
      rw [evalElements_cons hresult, bind_run]
      obtain ⟨values, hvalues, hall⟩ | ⟨hnone, other, hmem, hother⟩ := ih hrest
      · cases result with
        | ok value =>
            refine .inl ⟨value :: values, by rw [hvalues]; rfl, ?_⟩
            exact List.forall_mem_cons.mpr ⟨⟨value, hresult⟩, hall⟩
        | error error =>
            exact .inr ⟨by rw [hvalues]; rfl, element, List.mem_cons_self, error, hresult⟩
      · refine .inr ⟨?_, other, List.mem_cons_of_mem _ hmem, hother⟩
        rw [hnone]
        cases result <;> rfl

theorem Expr.Settles.ext {expr : Expr} {result other : Except RuntimeError Value}
    (h : expr.Settles call frame machine result) (ho : expr.Settles call frame machine other) :
    result = other := by
  have heq := (h.2 .expression).symm.trans (ho.2 .expression)
  cases result <;> cases other <;> cases heq <;> rfl

theorem Expr.settles_binary (op : BinaryOp) {left right : Expr}
    {first second : Except RuntimeError Value} (hl : left.Settles call frame machine first)
    (hr : right.Settles call frame machine second) :
    (Expr.binary op left right).Settles call frame machine
      (first.bind fun a => second.bind fun b => op.apply a b) := by
  refine ⟨Expr.noConfusion, fun slot => ?_⟩
  rw [Expr.eval, bind_run, hl.2]
  cases first with
  | error error => rfl
  | ok a =>
      change (right.eval call frame .rightOperand >>= fun b => ofExcept (op.apply a b)) machine = _
      rw [bind_run, hr.2]
      cases second <;> rfl

theorem Expr.settles_unary (op : UnaryOp) {operand : Expr} {result : Except RuntimeError Value}
    (h : operand.Settles call frame machine result) :
    (Expr.unary op operand).Settles call frame machine (result.bind op.apply) := by
  refine ⟨Expr.noConfusion, fun slot => ?_⟩
  rw [Expr.eval, bind_run, h.2]
  cases result <;> rfl

-- A kind for a literal needs one for each element, so an element that fails has a division.
theorem Expr.settles_array {elements : List Expr}
    (h : ∀ element ∈ elements, ∃ result, element.Settles call frame machine result ∧
      Fits element.kind? (element.DividesByZero call frame machine) result) :
    ∃ result, (Expr.array elements).Settles call frame machine result ∧
      Fits (Expr.array elements).kind? ((Expr.array elements).DividesByZero call frame machine)
        result := by
  have hsettles : ∀ element ∈ elements, ∃ result, element.Settles call frame machine result :=
    fun element hmem => (h element hmem).imp fun _ h => h.1
  obtain ⟨values, hvalues, hall⟩ | ⟨hnone, element, hmem, error, herror⟩ :=
    evalElements_of_settles hsettles
  · refine ⟨.ok (.array values), ⟨Expr.noConfusion, fun slot => ?_⟩, ?_⟩
    · rw [Expr.eval, bind_run, hvalues]
      rfl
    · have hkinds : allKinded elements := by
        refine allKinded_iff.mpr fun element hmem => ?_
        obtain ⟨result, hresult, hfits⟩ := h element hmem
        obtain ⟨value, hvalue⟩ := hall element hmem
        rw [hresult.ext hvalue] at hfits
        exact hfits ▸ rfl
      rw [Fits, Expr.kind?, if_pos hkinds]
      rfl
  · refine ⟨.error .invalidArrayElements, ⟨Expr.noConfusion, fun slot => ?_⟩, fun kind hkind => ?_⟩
    · rw [Expr.eval, bind_run, hnone]
      rfl
    · obtain ⟨result, hresult, hfits⟩ := h element hmem
      rw [hresult.ext herror] at hfits
      rw [Expr.kind?, Option.ite_none_right_eq_some] at hkind
      obtain ⟨k, hk⟩ := Option.isSome_iff_exists.mp (allKinded_iff.mp hkind.1 element hmem)
      exact .element hmem (hfits k hk)

theorem Expr.IsOperation.settles (call : Caller) (frame : Nat) (machine : Machine) {expr : Expr}
    (h : expr.IsOperation) :
    ∃ result, expr.Settles call frame machine result ∧
      Fits expr.kind? (expr.DividesByZero call frame machine) result := by
  induction h with
  | integer value => exact ⟨.ok (.integer value), ⟨Expr.noConfusion, fun _ => rfl⟩, rfl⟩
  | float value => exact ⟨.ok (.float value), ⟨Expr.noConfusion, fun _ => rfl⟩, rfl⟩
  | string literal =>
      exact ⟨.ok (.string (stringContent literal)), ⟨Expr.noConfusion, fun _ => rfl⟩, rfl⟩
  | boolean value => exact ⟨.ok (.boolean value), ⟨Expr.noConfusion, fun _ => rfl⟩, rfl⟩
  | array helements ih => exact Expr.settles_array ih
  | @binary op left right hl hr ihl ihr =>
      obtain ⟨first, hfirst, hfitsFirst⟩ := ihl
      obtain ⟨second, hsecond, hfitsSecond⟩ := ihr
      refine ⟨_, Expr.settles_binary op hfirst hsecond, ?_⟩
      rw [Expr.kind?]
      refine hfitsFirst.bind (fun _ => .left) fun a ha => ?_
      subst ha
      refine hfitsSecond.bind (fun _ => .right (hfirst.2 _)) fun b hb => ?_
      subst hb
      refine (op.apply_fits a b).mono ?_
      rintro error ⟨rfl, rfl, hdividend, rfl⟩
      cases a with
      | integer dividend => exact .division (hfirst.2 _) (hsecond.2 _)
      | _ => exact Kind.noConfusion hdividend
  | @unary op operand hoperand ih =>
      obtain ⟨result, hresult, hfits⟩ := ih
      refine ⟨_, Expr.settles_unary op hresult, ?_⟩
      rw [Expr.kind?]
      exact hfits.bind (fun _ => .operand) fun value _ => op.apply_fits value

theorem Expr.IsOperation.settles_of_eval {expr : Expr} (h : expr.IsOperation) {slot : Slot}
    {value : Value} (heval : expr.eval call frame slot machine = .ok value machine) :
    expr.Settles call frame machine (.ok value) := by
  obtain ⟨result, hresult, -⟩ := h.settles call frame machine
  have heq := (hresult.2 slot).symm.trans heval
  cases result with
  | ok other =>
      obtain rfl : other = value := by
        cases heq
        rfl
      exact hresult
  | error error => exact nomatch heq

-- What is said to come of a division by zero does come of it.
theorem Expr.DividesByZero.settles {expr : Expr} {error : RuntimeError}
    (hd : expr.DividesByZero call frame machine error) (h : expr.IsOperation) :
    expr.Settles call frame machine (.error error) := by
  induction hd with
  | division hdividend hdivisor =>
      cases h with
      | binary _ hl hr =>
          exact Expr.settles_binary .div (hl.settles_of_eval hdividend)
            (hr.settles_of_eval hdivisor)
  | left hd ih =>
      cases h with
      | binary _ hl hr =>
          obtain ⟨result, hresult, -⟩ := hr.settles call frame machine
          exact Expr.settles_binary _ (ih hl) hresult
  | right hvalue hd ih =>
      cases h with
      | binary _ hl hr =>
          exact Expr.settles_binary _ (hl.settles_of_eval hvalue) (ih hr)
  | operand hd ih =>
      cases h with
      | unary _ hoperand => exact Expr.settles_unary _ (ih hoperand)
  | element hmem hd ih =>
      cases h with
      | array helements =>
          have herror := ih (helements _ hmem)
          obtain ⟨values, -, hall⟩ | ⟨hnone, -⟩ := evalElements_of_settles fun element hmem =>
            ((helements element hmem).settles call frame machine).imp fun _ h => h.1
          · obtain ⟨value, hvalue⟩ := hall _ hmem
            exact nomatch herror.ext hvalue
          · refine ⟨Expr.noConfusion, fun slot => ?_⟩
            rw [Expr.eval, bind_run, hnone]
            rfl

theorem Expr.DividesByZero.error_cases {expr : Expr} {error : RuntimeError}
    (h : expr.DividesByZero call frame machine error) :
    error = .divisionByZero ∨ error = .invalidArrayElements := by
  induction h with
  | division => exact .inl rfl
  | element => exact .inr rfl
  | left h ih => exact ih
  | right hl h ih => exact ih
  | operand h ih => exact ih

end

-- Evaluation of literals and operators, in any state and with nothing changed in it. An expression
-- with a kind gives a value of that kind, or fails for an integer division by zero in it. One
-- without a kind fails.
theorem operation_kindSound (call : Caller) (frame : Nat) (slot : Slot) (machine : Machine)
    {expr : Expr} (h : expr.IsOperation) :
    (∀ kind, expr.kind? = some kind →
      (∃ value, expr.eval call frame slot machine = .ok value machine ∧ value.kind = kind) ∨
      ∃ error, expr.eval call frame slot machine = .error (.failed error) machine ∧
        (error = .divisionByZero ∨ error = .invalidArrayElements) ∧
        expr.DividesByZero call frame machine error) ∧
    (expr.kind? = none →
      ∃ error, expr.eval call frame slot machine = .error (.failed error) machine) ∧
    ∀ error, expr.DividesByZero call frame machine error →
      expr.eval call frame slot machine = .error (.failed error) machine := by
  obtain ⟨result, hsettles, hfits⟩ := h.settles call frame machine
  have heval := hsettles.2 slot
  refine ⟨fun kind hkind => ?_, fun hnone => ?_, fun error hd => (hd.settles h).2 slot⟩
  · cases result with
    | ok value =>
        have hfits : expr.kind? = some value.kind := hfits
        exact .inl ⟨value, heval, Option.some.inj (hfits.symm.trans hkind)⟩
    | error error =>
        have hd := hfits kind hkind
        exact .inr ⟨error, heval, hd.error_cases, hd⟩
  · cases result with
    | ok value =>
        have hfits : expr.kind? = some value.kind := hfits
        exact nomatch hfits.symm.trans hnone
    | error error => exact ⟨error, heval⟩

-- The literal `[2, 1 / 0]` compared with the empty one.
theorem operation_kindSound_divided :
    let expr : Expr := .binary .equal
      (.array [.integer 2, .binary .div (.integer 1) (.integer 0)]) (.array [])
    let machine := Machine.bare []
    expr.IsOperation ∧ expr.kind? = some .boolean ∧
      ∃ error, expr.eval (callFunction 0) 0 .expression machine = .error (.failed error) machine ∧
        (error = .divisionByZero ∨ error = .invalidArrayElements) ∧
        expr.DividesByZero (callFunction 0) 0 machine error := by
  intro expr machine
  have hdivision : (Expr.binary .div (.integer 1) (.integer 0)).IsOperation :=
    .binary .div (.integer 1) (.integer 0)
  have helements : ∀ element ∈ [Expr.integer 2, .binary .div (.integer 1) (.integer 0)],
      element.IsOperation := by
    simpa using And.intro (Expr.IsOperation.integer 2) hdivision
  have h : expr.IsOperation := .binary .equal (.array helements) (.array (by simp))
  have hkind : expr.kind? = some .boolean := by decide
  have hfails : expr.eval (callFunction 0) 0 .expression machine =
      .error (.failed .invalidArrayElements) machine := rfl
  refine ⟨h, hkind, ?_⟩
  obtain ⟨hkinded, -, -⟩ := operation_kindSound (callFunction 0) 0 .expression machine h
  obtain ⟨value, hvalue, -⟩ | hfailure := hkinded .boolean hkind
  · exact nomatch hfails.symm.trans hvalue
  · exact hfailure

end Capuchin

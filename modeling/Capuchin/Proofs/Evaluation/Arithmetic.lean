import Capuchin.Proofs.Evaluation.Operations
import Mathlib

-- Arithmetic on integers is arithmetic in the ring of the integers, taken modulo 2^32 at the end.
namespace Capuchin

open Eval

-- Sums, differences, products and signs of integers and of names with `bound`.
inductive Expr.IsArithmetic (bound : String → Prop) : Expr → Prop
  | integer (value : Int32) : IsArithmetic bound (.integer value)
  | identifier {name : String} (h : bound name) : IsArithmetic bound (.identifier name)
  | add {left right : Expr} (hl : IsArithmetic bound left) (hr : IsArithmetic bound right) :
      IsArithmetic bound (.binary .add left right)
  | sub {left right : Expr} (hl : IsArithmetic bound left) (hr : IsArithmetic bound right) :
      IsArithmetic bound (.binary .sub left right)
  | mul {left right : Expr} (hl : IsArithmetic bound left) (hr : IsArithmetic bound right) :
      IsArithmetic bound (.binary .mul left right)
  | negate {operand : Expr} (h : IsArithmetic bound operand) :
      IsArithmetic bound (.unary .negate operand)
  | plus {operand : Expr} (h : IsArithmetic bound operand) :
      IsArithmetic bound (.unary .plus operand)

-- What an arithmetic expression comes to in a ring, with elements of it for the names.
def Expr.inRing {R : Type} [CommRing R] (names : String → R) : Expr → R
  | .integer value => (value.toInt : R)
  | .identifier name => names name
  | .binary .add left right => left.inRing names + right.inRing names
  | .binary .sub left right => left.inRing names - right.inRing names
  | .binary .mul left right => left.inRing names * right.inRing names
  | .unary .negate operand => -operand.inRing names
  | .unary .plus operand => operand.inRing names
  | _ => 0

-- The integer that an expression denotes, without any overflow.
def Expr.exact (values : String → Int32) (expr : Expr) : Int :=
  expr.inRing fun name => (values name).toInt

-- The 32-bit integer that is congruent to it.
def Expr.wrapped (values : String → Int32) (expr : Expr) : Int32 := Int32.ofInt (expr.exact values)

-- The polynomial in its names that an expression is. Expressions that the laws of commutative
-- rings make equal are one polynomial.
noncomputable def Expr.polynomial (expr : Expr) : MvPolynomial String Int :=
  expr.inRing MvPolynomial.X

section

variable {bound : String → Prop} {expr : Expr}

theorem Expr.IsArithmetic.map_inRing {R S : Type} [CommRing R] [CommRing S]
    (h : expr.IsArithmetic bound) (f : R →+* S) (names : String → R) :
    f (expr.inRing names) = expr.inRing fun name => f (names name) := by
  induction h with
  | integer value => exact map_intCast f _
  | identifier h => rfl
  | add hl hr ihl ihr => rw [inRing, inRing, map_add, ihl, ihr]
  | sub hl hr ihl ihr => rw [inRing, inRing, map_sub, ihl, ihr]
  | mul hl hr ihl ihr => rw [inRing, inRing, map_mul, ihl, ihr]
  | negate h ih => rw [inRing, inRing, map_neg, ih]
  | plus h ih => rw [inRing, inRing, ih]

theorem Expr.IsArithmetic.exact_eq (h : expr.IsArithmetic bound) (values : String → Int32) :
    expr.exact values =
      MvPolynomial.eval (fun name => (values name).toInt) expr.polynomial := by
  refine Eq.trans ?_ (h.map_inRing (MvPolynomial.eval fun name => (values name).toInt) _).symm
  simp only [MvPolynomial.eval_X, exact]

end

-- One 32-bit integer is congruent to a given integer.
theorem toInt_modEq_iff (m : Int32) (n : Int) :
    m.toInt ≡ n [ZMOD 2 ^ 32] ↔ m = Int32.ofInt n := by
  have hlow := Int32.le_toInt m
  have hhigh := Int32.toInt_lt m
  rw [eq_comm (b := Int32.ofInt n), Int32.ofInt_eq_iff_bmod_eq_toInt, Int.ModEq, Int.bmod_def]
  omega

theorem ofInt_tdiv (a b : Int32) : Int32.ofInt (a.toInt.tdiv b.toInt) = a / b := by
  rw [← Int32.toInt_inj, Int32.toInt_div, Int32.toInt_ofInt]

section

variable {call : Caller} {frame : Nat} {machine : Machine} {values : String → Int32}

-- The name is seen from the frame, with the integer that `values` has for it.
def Machine.Binds (machine : Machine) (frame : Nat) (values : String → Int32) (name : String) :
    Prop :=
  machine.environment.get frame name = .bound (.integer (values name))

theorem Expr.IsArithmetic.settles {expr : Expr}
    (h : expr.IsArithmetic (machine.Binds frame values)) :
    expr.Settles call frame machine (.ok (.integer (expr.wrapped values))) := by
  induction h with
  | integer value =>
      refine ⟨Expr.noConfusion, fun _ => ?_⟩
      rw [wrapped, exact, inRing, Int.cast_id, Int32.ofInt_toInt]
      rfl
  | @identifier name h =>
      refine ⟨Expr.noConfusion, fun _ => ?_⟩
      rw [wrapped, exact, inRing, Int32.ofInt_toInt, Expr.eval, lookup_run, h]
      rfl
  | add hl hr ihl ihr =>
      rw [wrapped, exact, inRing, Int32.ofInt_add]
      exact settles_binary .add ihl ihr
  | sub hl hr ihl ihr =>
      rw [wrapped, exact, inRing, Int32.ofInt_sub]
      exact settles_binary .sub ihl ihr
  | mul hl hr ihl ihr =>
      rw [wrapped, exact, inRing, Int32.ofInt_mul]
      exact settles_binary .mul ihl ihr
  | negate h ih =>
      rw [wrapped, exact, inRing, Int32.ofInt_neg]
      exact settles_unary .negate ih
  | plus h ih => exact settles_unary .plus ih

-- Division of two integers, by cases on the divisor.
theorem apply_div_integers (a b : Int32) :
    BinaryOp.div.apply (.integer a) (.integer b) =
      if b = 0 then .error .divisionByZero
      else .ok (.integer (Int32.ofInt (a.toInt.tdiv b.toInt))) := by
  rw [ofInt_tdiv]
  rfl

end

-- An expression of integers never fails, and its value is the one 32-bit integer congruent to what
-- it denotes, however it is written. A quotient of two fails just if the divisor comes to zero,
-- and else is the truncated quotient of their values.
theorem arithmetic_exact (call : Caller) (frame : Nat) (slot : Slot) (machine : Machine)
    (values : String → Int32) {first second : Expr}
    (hf : first.IsArithmetic (machine.Binds frame values))
    (hs : second.IsArithmetic (machine.Binds frame values)) :
    (first.eval call frame slot machine = .ok (.integer (first.wrapped values)) machine ∧
      ∀ n : Int32, n.toInt ≡ first.exact values [ZMOD 2 ^ 32] ↔ n = first.wrapped values) ∧
    (first.polynomial = second.polynomial →
      first.eval call frame slot machine = second.eval call frame slot machine) ∧
    ((Expr.binary .div first second).eval call frame slot machine =
        .error (.failed .divisionByZero) machine ↔ second.wrapped values = 0) ∧
    (second.wrapped values ≠ 0 → ∃ n : Int32,
      (Expr.binary .div first second).eval call frame slot machine = .ok (.integer n) machine ∧
      n.toInt ≡ (first.wrapped values).toInt.tdiv (second.wrapped values).toInt
        [ZMOD 2 ^ 32]) := by
  have hquotient : (Expr.binary .div first second).eval call frame slot machine = _ :=
    (Expr.settles_binary .div hf.settles hs.settles).2 slot
  simp only [Except.bind, apply_div_integers] at hquotient
  refine ⟨⟨hf.settles.2 slot, fun n => toInt_modEq_iff n _⟩, fun hpolynomial => ?_, ?_, ?_⟩
  · have hexact : first.exact values = second.exact values := by
      rw [hf.exact_eq, hs.exact_eq, hpolynomial]
    rw [hf.settles.2, hs.settles.2, Expr.wrapped, hexact, Expr.wrapped]
  · rw [hquotient]
    split
    · rename_i hzero
      exact iff_of_true rfl hzero
    · rename_i hne
      exact iff_of_false nofun hne
  · intro hne
    rw [if_neg hne] at hquotient
    exact ⟨_, hquotient, (toInt_modEq_iff _ _).mpr rfl⟩

-- The least integer divided by -1. Both are the values of sums that overflow.
theorem arithmetic_exact_overflowing :
    let environment := Environment.empty.set Environment.root "x" (.integer 2147483647)
    let machine : Machine := { Machine.bare [] with environment }
    let values (_ : String) : Int32 := 2147483647
    let first : Expr := .binary .add (.identifier "x") (.integer 1)
    let second : Expr :=
      .binary .add (.binary .add (.identifier "x") (.identifier "x")) (.integer 1)
    first.IsArithmetic (machine.Binds Environment.root values) ∧
      second.IsArithmetic (machine.Binds Environment.root values) ∧ second.wrapped values ≠ 0 ∧
      ∃ n : Int32,
        (Expr.binary .div first second).eval (callFunction 0) Environment.root .expression machine =
          .ok (.integer n) machine ∧
        n.toInt ≡ 2147483648 [ZMOD 2 ^ 32] := by
  intro environment machine values first second
  have hx : machine.Binds Environment.root values "x" := by
    rw [Machine.Binds, Environment.get]
    rfl
  have hf : first.IsArithmetic (machine.Binds Environment.root values) :=
    .add (.identifier hx) (.integer 1)
  have hs : second.IsArithmetic (machine.Binds Environment.root values) :=
    .add (.add (.identifier hx) (.identifier hx)) (.integer 1)
  have hne : second.wrapped values ≠ 0 := by decide +kernel
  obtain ⟨-, -, -, hquotient⟩ :=
    arithmetic_exact (callFunction 0) Environment.root .expression machine values hf hs
  obtain ⟨n, hn, hmod⟩ := hquotient hne
  have htdiv : (first.wrapped values).toInt.tdiv (second.wrapped values).toInt = 2147483648 := by
    decide +kernel
  exact ⟨hf, hs, hne, n, hn, htdiv ▸ hmod⟩

end Capuchin

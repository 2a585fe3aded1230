import Capuchin.Proofs.Evaluation.Carrying
import Mathlib

-- What evaluation maintains where the values that go through it do not matter.
namespace Capuchin

open Eval

-- What evaluation in a frame rests on: each primitive keeps `I` and signals only what is in `S`,
-- and every failure of the program is in `S`.
structure Primitives (I : Machine → Prop) (S : Signal → Prop) (call : Caller) (frame : Nat) :
    Prop where
  failed : ∀ error, S (.failed error)
  lookup : ∀ name, Maintains I anything S (lookup frame name)
  bindName : ∀ name value, Maintains I anything S (bindName frame name value)
  newFunction : ∀ parameters body, Maintains I anything S (newFunction parameters body)
  write : ∀ text, Maintains I anything S (write text)
  readLine : Maintains I anything S readLine
  call : ∀ function arguments, Maintains I anything S (call function arguments frame)

-- A machine of which nothing is known.
abbrev anyMachine (_ : Machine) : Prop := True

theorem confined_anything (gaps : List Slot) : Confined anything gaps := fun _ _ => trivial

section

variable {I : Machine → Prop} {S : Signal → Prop} {call : Caller} {frame : Nat}

-- With every slot allowed to be missing, every value is carried.
theorem Primitives.carries (h : Primitives I S call frame) :
    Carries anything I S call frame where
  failed := fun error _ => h.failed error
  lookup := fun name => (h.lookup name).mono (fun _ _ => confined_anything _) fun _ hs => hs
  bindName := fun name value _ => h.bindName name value
  newFunction := fun parameters body _ =>
    (h.newFunction parameters body).mono (fun _ _ => confined_anything _) fun _ hs => hs
  write := h.write
  readLine := h.readLine
  call := fun function arguments _ _ =>
    (h.call function arguments).mono (fun _ _ => confined_anything _) fun _ hs => hs

theorem Carries.primitives (h : Carries anything I S call frame) :
    Primitives I S call frame where
  failed := fun error => h.failed error fun _ _ => trivial
  lookup := fun name => (h.lookup name).mono (fun _ _ => trivial) fun _ hs => hs
  bindName := fun name value => h.bindName name value (confined_anything _)
  newFunction := fun parameters body =>
    (h.newFunction parameters body (confined_anything _)).mono (fun _ _ => trivial) fun _ hs => hs
  write := h.write
  readLine := h.readLine
  call := fun function arguments =>
    (h.call function arguments (confined_anything _) (confined_anything _)).mono
      (fun _ _ => trivial) fun _ hs => hs

theorem Primitives.orReturned (h : Primitives I S call frame) :
    Primitives I (orReturned anything S) call frame :=
  (h.carries.orReturned fun _ _ => trivial).primitives

-- Where nothing is asked of the machine, all that counts is what is signalled.
theorem primitives_of_signals (hfailed : ∀ error, S (.failed error)) (hstuck : S .stuck)
    (hcall : ∀ function arguments,
      Maintains anyMachine anything S (call function arguments frame)) :
    Primitives anyMachine S call frame where
  failed := hfailed
  lookup := by
    intro name machine _
    rw [lookup_run]
    cases machine.environment.get frame name with
    | bound value => exact ⟨trivial, trivial⟩
    | unbound => exact ⟨trivial, hfailed _⟩
    | broken => exact ⟨trivial, hstuck⟩
  bindName := by
    intro name value machine _
    by_cases hlive : frame < machine.environment.depth
    · rw [bindName_run name value hlive]
      exact ⟨trivial, trivial⟩
    · rw [bindName_run_of_dead name value hlive]
      exact ⟨trivial, hstuck⟩
  newFunction := fun parameters body machine _ => ⟨trivial, trivial⟩
  write := fun text machine _ => ⟨trivial, trivial⟩
  readLine := by
    intro machine _
    rw [readLine_run]
    cases machine.console.readLine? with
    | none => exact ⟨trivial, hfailed _⟩
    | some line => exact ⟨trivial, trivial⟩
  call := hcall

theorem Expr.eval_maintains (h : Primitives I S call frame) (slot : Slot) (expr : Expr) :
    Maintains I anything S (expr.eval call frame slot) :=
  (expr.eval_carries h.carries (confined_anything _)).mono (fun _ _ => trivial) fun _ hs => hs

theorem Stmt.eval_maintains (h : Primitives I S call frame) (hr : ∀ value, S (.returned value))
    (stmt : Stmt) : Maintains I anything S (stmt.eval call frame) :=
  (stmt.eval_carries h.carries (fun value _ => hr value) (confined_anything _)).mono
    (fun _ _ => trivial) fun _ hs => hs

theorem evalBlock_maintains (h : Primitives I S call frame) (hr : ∀ value, S (.returned value))
    (last : Value) (block : Block) :
    Maintains I anything S (evalBlock call frame last block) :=
  (evalBlock_carries h.carries (fun value _ => hr value) (confined_anything _)
    (confined_anything _)).mono (fun _ _ => trivial) fun _ hs => hs

theorem Function.invoke_maintains (h : Primitives I S call frame) (function : Function)
    (arguments : List Value) :
    Maintains I anything S (function.invoke call frame arguments) :=
  (Function.invoke_carries h.carries (fun _ _ => confined_anything _) (confined_anything _)
    (confined_anything _)).mono (fun _ _ => trivial) fun _ hs => hs

end

end Capuchin

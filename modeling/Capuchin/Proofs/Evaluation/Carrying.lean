import Capuchin.Evaluation.Tree
import Capuchin.Proofs.Evaluation.Invariant
import Capuchin.Proofs.Syntax.Gaps
import Mathlib

-- Evaluation touches the machine through a few primitives only. What these maintain, the
-- evaluation of any tree and the run of any builtin maintains, and the functions in values come
-- from trees that lack no more than the evaluated one.
namespace Capuchin

open Eval

-- Any value will do.
abbrev anything {α : Type} : α → Prop := fun _ => True

-- What is missing in the bodies of functions, however deep in a value they are.

def Function.gaps : Function → List Slot
  | .user _ _ body => stmtGaps body
  | .builtin _ => []

mutual

def Value.gaps : Value → List Slot
  | .array elements => valueGaps elements
  | .function function => function.gaps
  | _ => []

def valueGaps : List Value → List Slot
  | [] => []
  | value :: rest => value.gaps ++ valueGaps rest

end

-- The functions in a value lack what is allowed only.
abbrev Carried (allowed : Slot → Prop) (value : Value) : Prop := Confined allowed value.gaps

abbrev AllCarried (allowed : Slot → Prop) (values : List Value) : Prop :=
  Confined allowed (valueGaps values)

section Values

variable {allowed : Slot → Prop} {values : List Value}

@[simp] theorem confined_valueGaps_cons {value : Value} :
    AllCarried allowed (value :: values) ↔ Carried allowed value ∧ AllCarried allowed values := by
  rw [AllCarried, valueGaps, confined_append]

theorem confined_valueGaps_iff :
    AllCarried allowed values ↔ ∀ value ∈ values, Carried allowed value := by
  induction values with
  | nil => simp [AllCarried, valueGaps]
  | cons value rest ih => rw [confined_valueGaps_cons, ih, List.forall_mem_cons]

-- An error that says of no slot but an allowed one that it is missing.
def RuntimeError.Allowed (allowed : Slot → Prop) (error : RuntimeError) : Prop :=
  ∀ slot, error = .missing slot → allowed slot

-- The result of an operator holds no function, and nothing is missing.
def Plain : Except RuntimeError Value → Prop
  | .ok value => value.gaps = []
  | .error error => ∀ slot, error ≠ .missing slot

theorem compared_plain (op : BinaryOp) (kind : Kind) (result : Option Bool) :
    Plain (Operation.compared op kind result) := by
  cases result with
  | some answer => simp [Operation.compared, Plain, Value.gaps]
  | none => simp [Operation.compared, Plain]

theorem BinaryOp.apply_plain (op : BinaryOp) (left right : Value) :
    Plain (op.apply left right) := by
  unfold BinaryOp.apply
  split
  · unfold Operation.onIntegers
    split
    case h_4 => split <;> simp [Plain, Value.gaps]
    case h_5 => exact compared_plain _ _ _
    all_goals simp [Plain, Value.gaps]
  · unfold Operation.onFloats
    split
    case h_5 => exact compared_plain _ _ _
    all_goals simp [Plain, Value.gaps]
  · unfold Operation.onStrings
    split
    case h_2 => exact compared_plain _ _ _
    all_goals simp [Plain, Value.gaps]
  · unfold Operation.onBooleans
    split <;> simp [Plain, Value.gaps]
  · unfold Operation.onArrays
    split <;> simp [Plain, Value.gaps]
  all_goals simp [Plain]

theorem UnaryOp.apply_plain (op : UnaryOp) (operand : Value) : Plain (op.apply operand) := by
  unfold UnaryOp.apply
  split <;> simp [Plain, Value.gaps]

end Values

-- What evaluation in a frame rests on: each primitive keeps `I` and signals only what is in `S`,
-- and every failure of the program is in `S` that is not about a slot that has to be filled.
structure Carries (allowed : Slot → Prop) (I : Machine → Prop) (S : Signal → Prop) (call : Caller)
    (frame : Nat) : Prop where
  failed : ∀ error : RuntimeError, error.Allowed allowed → S (.failed error)
  lookup : ∀ name, Maintains I (Carried allowed) S (lookup frame name)
  bindName : ∀ name value, Carried allowed value →
    Maintains I anything S (bindName frame name value)
  newFunction : ∀ parameters body, Confined allowed (stmtGaps body) →
    Maintains I (Carried allowed) S (newFunction parameters body)
  write : ∀ text, Maintains I anything S (write text)
  readLine : Maintains I anything S readLine
  call : ∀ function arguments, Confined allowed function.gaps → AllCarried allowed arguments →
    Maintains I (Carried allowed) S (call function arguments frame)

namespace Carries

variable {allowed : Slot → Prop} {I : Machine → Prop} {S : Signal → Prop} {call : Caller}
  {frame : Nat} (h : Carries allowed I S call frame)

include h in
theorem fail {V : α → Prop} {error : RuntimeError} (he : ∀ slot, error ≠ .missing slot) :
    Maintains I V S (Eval.fail error) :=
  .fail (h.failed error fun slot heq => absurd heq (he slot))

include h in
theorem missing {V : α → Prop} {slot : Slot} (hs : allowed slot) :
    Maintains I V S (Eval.fail (.missing slot)) :=
  .fail (h.failed _ fun _ heq => RuntimeError.missing.inj heq ▸ hs)

include h in
theorem ofPlain {result : Except RuntimeError Value} (hp : Plain result) :
    Maintains I (Carried allowed) S (Eval.ofExcept result) := by
  refine .ofExcept (fun value heq => ?_) fun error heq => ?_
  · rw [heq] at hp
    rw [Carried, show value.gaps = [] from hp]
    exact confined_nil
  · rw [heq] at hp
    exact h.failed error fun slot hmissing => absurd hmissing (hp slot)

include h in
theorem checkArity (arity : Arity) (count : Nat) :
    Maintains I (fun _ => arity.check count = .ok ()) S (Eval.ofExcept (arity.check count)) := by
  refine .ofExcept (fun _ heq => heq) fun error heq => h.failed error fun slot hmissing => ?_
  subst hmissing
  unfold Arity.check at heq
  split at heq
  · split at heq <;> simp at heq
  · simp at heq

include h in
theorem capture {parameters : List (Option String)} {body : Block}
    (hp : Confined allowed (nameGaps .parameterName parameters))
    (hb : Confined allowed (stmtGaps body)) :
    Maintains I (Carried allowed) S (capture parameters body) := by
  unfold Capuchin.capture
  cases hnames : parameters.mapM id with
  | none => exact h.missing (hp _ (mem_nameGaps_of_mapM_eq_none hnames .parameterName))
  | some names => exact h.newFunction names body hb

include h in
theorem condition (value : Value) : Maintains I anything S (condition value) := by
  cases value with
  | boolean answer => exact .pure trivial
  | _ => exact h.fail (by simp)

include h in
theorem element {elements : List Value} (he : AllCarried allowed elements) (position : Value) :
    Maintains I (Carried allowed) S (element elements position) := by
  cases position with
  | integer position =>
      unfold Capuchin.element
      dsimp only
      cases hx : Integer.index? position elements.length with
      | none => exact h.fail (by simp)
      | some index =>
          have hlt : index < elements.length := by
            simp only [Integer.index?, Option.ite_none_right_eq_some, Option.some.injEq] at hx
            omega
          simp only [List.getElem?_eq_getElem hlt]
          exact .pure (confined_valueGaps_iff.mp he _ (List.getElem_mem hlt))
  | _ => exact h.fail (by simp)

end Carries

section Trees

variable {allowed : Slot → Prop} {I : Machine → Prop} {S : Signal → Prop} {call : Caller}
  {frame : Nat}

mutual

theorem Expr.eval_carries (h : Carries allowed I S call frame) {slot : Slot} {expr : Expr}
    (hg : Confined allowed (expr.gaps slot)) :
    Maintains I (Carried allowed) S (expr.eval call frame slot) := by
  cases expr with
  | missing => exact h.missing (confined_singleton.mp hg)
  | identifier name => exact h.lookup name
  | integer value => exact .pure confined_nil
  | float value => exact .pure confined_nil
  | string literal => exact .pure confined_nil
  | boolean value => exact .pure confined_nil
  | array elements =>
      rw [Expr.eval]
      refine (evalElements_carries h hg).bind fun values hv => ?_
      cases values with
      | some values => exact .pure (hv values rfl)
      | none => exact h.fail (by simp)
  | binary op left right =>
      rw [Expr.gaps, confined_append] at hg
      rw [Expr.eval]
      refine (left.eval_carries h hg.1).bind fun a _ => ?_
      exact (right.eval_carries h hg.2).bind fun b _ => h.ofPlain (op.apply_plain a b)
  | unary op operand =>
      rw [Expr.eval]
      exact (operand.eval_carries h hg).bind fun a _ => h.ofPlain (op.apply_plain a)
  | call callee arguments =>
      rw [Expr.gaps, confined_append] at hg
      rw [Expr.eval]
      refine (callee.eval_carries h hg.1).bind fun value hvalue => ?_
      cases value with
      | function function =>
          exact (evalArguments_carries h hg.2).bind fun values => h.call function values hvalue
      | _ => exact h.fail (by simp)
  | assignment name value =>
      rw [Expr.eval]
      refine (value.eval_carries h hg).bind fun result hr => ?_
      exact (h.bindName name result hr).bind fun _ _ => .pure hr
  | index array position =>
      rw [Expr.gaps, confined_append] at hg
      rw [Expr.eval]
      refine (array.eval_carries h hg.1).bind fun value hvalue => ?_
      cases value with
      | array elements =>
          exact (position.eval_carries h hg.2).bind fun value _ => h.element hvalue value
      | _ => exact h.fail (by simp)
  | function parameters body =>
      rw [Expr.gaps, confined_append] at hg
      exact h.capture hg.1 hg.2

theorem evalArguments_carries (h : Carries allowed I S call frame) {arguments : List Expr}
    (hg : Confined allowed (exprGaps .argument arguments)) :
    Maintains I (AllCarried allowed) S (evalArguments call frame arguments) := by
  cases arguments with
  | nil => exact .pure confined_nil
  | cons argument rest =>
      rw [exprGaps, confined_append] at hg
      rw [evalArguments]
      refine (argument.eval_carries h hg.1).bind fun value hvalue => ?_
      exact (evalArguments_carries h hg.2).bind fun values hvalues =>
        .pure (confined_valueGaps_cons.mpr ⟨hvalue, hvalues⟩)

theorem evalElements_carries (h : Carries allowed I S call frame) {elements : List Expr}
    (hg : Confined allowed (exprGaps .arrayElement elements)) :
    Maintains I (fun result => ∀ values, result = some values → AllCarried allowed values) S
      (evalElements call frame elements) := by
  cases elements with
  | nil => exact .pure fun _ heq => Option.some.inj heq ▸ confined_nil
  | cons element rest =>
      rw [exprGaps, confined_append] at hg
      have hrest := evalElements_carries h hg.2
      have helement := element.eval_carries h hg.1
      cases element with
      | missing => exact h.missing (confined_singleton.mp hg.1)
      | _ =>
          rw [evalElements]
          · refine helement.attempt.bind fun value hvalue => ?_
            refine hrest.bind fun values hvalues => .pure fun all heq => ?_
            simp only [Option.bind_eq_some_iff, Option.map_eq_some_iff] at heq
            obtain ⟨first, hfirst, others, hothers, rfl⟩ := heq
            exact confined_valueGaps_cons.mpr ⟨hvalue first hfirst, hvalues others hothers⟩
          · simp

end

mutual

theorem Stmt.eval_carries (h : Carries allowed I S call frame)
    (hr : ∀ value, Carried allowed value → S (.returned value)) {stmt : Stmt}
    (hg : Confined allowed stmt.gaps) : Maintains I (Carried allowed) S (stmt.eval call frame) := by
  cases stmt with
  | bind name value =>
      rw [Stmt.gaps, confined_append] at hg
      cases name with
      | none => exact h.missing (hg.1 .letName (by simp [nameGaps]))
      | some name =>
          rw [Stmt.eval]
          refine (value.eval_carries h hg.2).bind fun result hresult => ?_
          exact (h.bindName name result hresult).bind fun _ _ => .pure hresult
  | giveBack value =>
      rw [Stmt.eval]
      exact (value.eval_carries h hg).bind fun result hresult => .throw (hr result hresult)
  | ifThen test consequence =>
      rw [Stmt.gaps, confined_append] at hg
      rw [Stmt.eval]
      refine (test.eval_carries h hg.1).bind fun value _ => ?_
      refine (h.condition value).bind fun answer _ => ?_
      cases answer with
      | true => exact evalBlock_carries h hr confined_nil hg.2
      | false => exact .pure confined_nil
  | ifElse test consequence alternative =>
      rw [Stmt.gaps, confined_append, confined_append] at hg
      rw [Stmt.eval]
      refine (test.eval_carries h hg.1).bind fun value _ => ?_
      refine (h.condition value).bind fun answer _ => ?_
      cases answer with
      | true => exact evalBlock_carries h hr confined_nil hg.2.1
      | false => exact evalBlock_carries h hr confined_nil hg.2.2
  | whileLoop test body => exact h.fail (by simp)
  | block body => exact evalBlock_carries h hr confined_nil hg
  | define name parameters body =>
      rw [Stmt.gaps, confined_append] at hg
      rw [Stmt.eval]
      refine (h.capture hg.1 hg.2).bind fun function hfunction => ?_
      exact (h.bindName name function hfunction).bind fun _ _ => .pure hfunction
  | expression value => exact value.eval_carries h hg

theorem evalBlock_carries (h : Carries allowed I S call frame)
    (hr : ∀ value, Carried allowed value → S (.returned value)) {last : Value}
    (hl : Carried allowed last) {block : Block} (hg : Confined allowed (stmtGaps block)) :
    Maintains I (Carried allowed) S (evalBlock call frame last block) := by
  cases block with
  | nil => exact .pure hl
  | cons stmt rest =>
      rw [stmtGaps, confined_append] at hg
      rw [evalBlock]
      exact (stmt.eval_carries h hr hg.1).bind fun value hvalue =>
        evalBlock_carries h hr hvalue hg.2

end

end Trees

namespace Builtin

variable {allowed : Slot → Prop} {I : Machine → Prop} {S : Signal → Prop} {call : Caller}
  {frame : Nat} {arguments : List Value}

theorem argument_carries (ha : AllCarried allowed arguments) {position : Nat}
    (hp : position < arguments.length) :
    Maintains I (Carried allowed) S (argument arguments position) := by
  unfold argument
  simp only [List.getElem?_eq_getElem hp]
  exact .pure (confined_valueGaps_iff.mp ha _ (List.getElem_mem hp))

theorem arrayArgument_carries (h : Carries allowed I S call frame)
    (ha : AllCarried allowed arguments) (hp : 0 < arguments.length) :
    Maintains I (AllCarried allowed) S (arrayArgument arguments) := by
  refine (argument_carries ha hp).bind fun value hvalue => ?_
  cases value with
  | array elements => exact .pure hvalue
  | _ => exact h.fail (by simp)

theorem functionArgument_carries (h : Carries allowed I S call frame)
    (ha : AllCarried allowed arguments) (hp : 1 < arguments.length) :
    Maintains I (fun function => Confined allowed function.gaps) S
      (functionArgument arguments) := by
  refine (argument_carries ha hp).bind fun value hvalue => ?_
  cases value with
  | function function => exact .pure hvalue
  | _ => exact h.fail (by simp)

theorem stringArgument_carries (h : Carries allowed I S call frame)
    (ha : AllCarried allowed arguments) (hp : 0 < arguments.length) :
    Maintains I anything S (stringArgument arguments) := by
  refine (argument_carries ha hp).bind fun value _ => ?_
  cases value with
  | string text => exact .pure trivial
  | _ => exact h.fail (by simp)

theorem printAll_carries (h : Carries allowed I S call frame) (ending : String)
    (values : List Value) : Maintains I anything S (printAll ending values) := by
  induction values with
  | nil => exact .pure trivial
  | cons value rest ih => exact (h.write _).bind fun _ _ => ih

theorem converted_carries (h : Carries allowed I S call frame) (text : String) (target : Kind)
    {reading : Option Value} (hv : ∀ value, reading = some value → Carried allowed value) :
    Maintains I (Carried allowed) S (converted text target reading) := by
  cases reading with
  | some value => exact .pure (hv value rfl)
  | none => exact h.fail (by simp)

theorem length_carries (h : Carries allowed I S call frame) (value : Value) :
    Maintains I (Carried allowed) S (length value) := by
  cases value with
  | string text => exact .pure confined_nil
  | array elements => exact .pure confined_nil
  | _ => exact h.fail (by simp)

section Callbacks

variable {elements : List Value}

theorem mapped_carries {callback : Value → Eval Value}
    (hc : ∀ value, Carried allowed value → Maintains I (Carried allowed) S (callback value))
    (he : AllCarried allowed elements) :
    Maintains I (AllCarried allowed) S (mapped callback elements) := by
  induction elements with
  | nil => exact .pure confined_nil
  | cons element rest ih =>
      obtain ⟨helement, hrest⟩ := confined_valueGaps_cons.mp he
      exact (hc element helement).bind fun result hresult => (ih hrest).bind fun results hresults =>
        .pure (confined_valueGaps_cons.mpr ⟨hresult, hresults⟩)

theorem filtered_carries {callback : Value → Eval Value}
    (hc : ∀ value, Carried allowed value → Maintains I (Carried allowed) S (callback value))
    (he : AllCarried allowed elements) :
    Maintains I (AllCarried allowed) S (filtered callback elements) := by
  induction elements with
  | nil => exact .pure confined_nil
  | cons element rest ih =>
      obtain ⟨helement, hrest⟩ := confined_valueGaps_cons.mp he
      refine (hc element helement).bind fun result _ => (ih hrest).bind fun kept hkept => ?_
      split
      · exact .pure (confined_valueGaps_cons.mpr ⟨helement, hkept⟩)
      · exact .pure hkept

theorem reduced_carries {callback : Value → Value → Eval Value}
    (hc : ∀ before value, Carried allowed before → Carried allowed value →
      Maintains I (Carried allowed) S (callback before value))
    {before : Value} (hb : Carried allowed before) (he : AllCarried allowed elements) :
    Maintains I (Carried allowed) S (reduced callback before elements) := by
  induction elements generalizing before with
  | nil => exact .pure hb
  | cons element rest ih =>
      obtain ⟨helement, hrest⟩ := confined_valueGaps_cons.mp he
      exact (hc before element hb helement).bind fun result hresult => ih hresult hrest

end Callbacks

-- A builtin looks only at arguments whose number it has checked.
theorem run_carries (h : Carries allowed I S call frame) (builtin : Builtin)
    (ha : AllCarried allowed arguments) (hn : builtin.arity.check arguments.length = .ok ()) :
    Maintains I (Carried allowed) S (builtin.run call frame arguments) := by
  cases builtin with
  | print => exact (printAll_carries h "" arguments).bind fun _ _ => .pure confined_nil
  | println => exact (printAll_carries h "\n" arguments).bind fun _ _ => .pure confined_nil
  | input => exact h.readLine.bind fun _ _ => .pure confined_nil
  | len =>
      have hl : arguments.length = 1 := Arity.check_exactly.mp hn
      exact (argument_carries ha (by omega)).bind fun value _ => length_carries h value
  | push =>
      have hl : arguments.length = 2 := Arity.check_exactly.mp hn
      refine (arrayArgument_carries h ha (by omega)).bind fun elements he => ?_
      refine (argument_carries ha (by omega)).bind fun value hvalue => .pure ?_
      have hall := confined_valueGaps_iff.mp he
      exact confined_valueGaps_iff.mpr (List.forall_mem_append.mpr ⟨hall, by simpa using hvalue⟩)
  | pop =>
      have hl : arguments.length = 1 := Arity.check_exactly.mp hn
      refine (arrayArgument_carries h ha (by omega)).bind fun elements he => ?_
      cases elements with
      | nil => exact h.fail (by simp)
      | cons element rest =>
          refine .pure (confined_valueGaps_iff.mpr fun value hvalue => ?_)
          exact confined_valueGaps_iff.mp he value (List.mem_of_mem_dropLast hvalue)
  | toInt =>
      have hl : arguments.length = 1 := Arity.check_exactly.mp hn
      refine (stringArgument_carries h ha (by omega)).bind fun text _ => ?_
      refine converted_carries h text _ fun value heq => ?_
      obtain ⟨_, _, rfl⟩ := Option.map_eq_some_iff.mp heq
      exact confined_nil
  | toFloat =>
      have hl : arguments.length = 1 := Arity.check_exactly.mp hn
      refine (stringArgument_carries h ha (by omega)).bind fun text _ => ?_
      refine converted_carries h text _ fun value heq => ?_
      obtain ⟨_, _, rfl⟩ := Option.map_eq_some_iff.mp heq
      exact confined_nil
  | map =>
      have hl : arguments.length = 2 := Arity.check_exactly.mp hn
      refine (arrayArgument_carries h ha (by omega)).bind fun elements he => ?_
      refine (functionArgument_carries h ha (by omega)).bind fun function hf => ?_
      refine (mapped_carries (fun value hv => ?_) he).bind fun values hvalues => .pure hvalues
      exact h.call function [value] hf (confined_valueGaps_cons.mpr ⟨hv, confined_nil⟩)
  | filter =>
      have hl : arguments.length = 2 := Arity.check_exactly.mp hn
      refine (arrayArgument_carries h ha (by omega)).bind fun elements he => ?_
      refine (functionArgument_carries h ha (by omega)).bind fun function hf => ?_
      refine (filtered_carries (fun value hv => ?_) he).bind fun values hvalues => .pure hvalues
      exact h.call function [value] hf (confined_valueGaps_cons.mpr ⟨hv, confined_nil⟩)
  | reduce =>
      have hl : arguments.length = 3 := Arity.check_exactly.mp hn
      refine (arrayArgument_carries h ha (by omega)).bind fun elements he => ?_
      refine (functionArgument_carries h ha (by omega)).bind fun function hf => ?_
      refine (argument_carries ha (by omega)).bind fun start hstart => ?_
      refine reduced_carries (fun before value hb hv => ?_) hstart he
      have hboth : AllCarried allowed [before, value] :=
        confined_valueGaps_cons.mpr ⟨hb, confined_valueGaps_cons.mpr ⟨hv, confined_nil⟩⟩
      exact h.call function [before, value] hf hboth

end Builtin

section Calls

variable {allowed : Slot → Prop} {I : Machine → Prop} {S : Signal → Prop} {call : Caller}
  {frame : Nat}

theorem bindNames_carries (h : Carries allowed I S call frame) (names : List String)
    {values : List Value} (hv : AllCarried allowed values) :
    Maintains I anything S (bindNames frame names values) := by
  induction names generalizing values with
  | nil => exact .pure trivial
  | cons name names ih =>
      cases values with
      | nil => exact .pure trivial
      | cons value values =>
          obtain ⟨hvalue, hvalues⟩ := confined_valueGaps_cons.mp hv
          exact (h.bindName name value hvalue).bind fun _ _ => ih hvalues

theorem Carries.orReturned {V : Value → Prop} (h : Carries allowed I S call frame)
    (hv : ∀ value, S (.returned value) → V value) :
    Carries allowed I (orReturned V S) call frame := by
  have hs : ∀ signal, S signal → Eval.orReturned V S signal := by
    intro signal hsignal
    cases signal with
    | returned value => exact hv value hsignal
    | _ => exact hsignal
  exact {
    failed := h.failed
    lookup := fun name => (h.lookup name).mono (fun _ hv => hv) hs
    bindName := fun name value hv => (h.bindName name value hv).mono (fun _ hv => hv) hs
    newFunction := fun names body hb => (h.newFunction names body hb).mono (fun _ hv => hv) hs
    write := fun text => (h.write text).mono (fun _ hv => hv) hs
    readLine := h.readLine.mono (fun _ hv => hv) hs
    call := fun function arguments hf ha =>
      (h.call function arguments hf ha).mono (fun _ hv => hv) hs }

-- The body of a function may end in a `return`, its call does not.
theorem Function.invoke_carries (h : Carries allowed I S call frame)
    (hr : ∀ value, S (.returned value) → Carried allowed value) {function : Function}
    (hf : Confined allowed function.gaps) {arguments : List Value}
    (ha : AllCarried allowed arguments) :
    Maintains I (Carried allowed) S (function.invoke call frame arguments) := by
  cases function with
  | user number parameters body =>
      refine (h.checkArity _ _).bind fun _ _ => ?_
      refine (bindNames_carries h parameters ha).bind fun _ _ => ?_
      exact (evalBlock_carries (h.orReturned hr) (fun _ hv => hv) confined_nil hf).catchReturn
  | builtin b => exact (h.checkArity _ _).bind fun _ hn => b.run_carries h ha hn

end Calls

end Capuchin

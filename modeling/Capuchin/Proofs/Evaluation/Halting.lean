import Capuchin.Proofs.Evaluation.Stepping
import Capuchin.Proofs.Evaluation.Discipline

-- Between calls that are nested ever deeper every run ends, and it ends as evaluation does.
namespace Capuchin.Stepping

open Eval Builtin Environment

-- Any signal but the one that comes of a bound.
abbrev notTooDeep (signal : Signal) : Prop := signal ≠ .tooDeep

-- From a configuration on, a run comes to what waits at `pending` with the given result. If the
-- result is that calls are nested too deep, the run comes to a call with `limit` ones around it.
inductive Arrives (limit : Nat) (config : Config) (pending : List Task) :
    EStateM.Result Signal Machine Value → Prop
  | value {value : Value} {after : Machine}
      (h : Leads limit config ⟨.value value, pending, after⟩) :
      Arrives limit config pending (.ok value after)
  | signal {signal : Signal} {after : Machine} (hs : notTooDeep signal)
      (h : Leads limit config ⟨.signal signal, pending, after⟩) :
      Arrives limit config pending (.error signal after)
  | tooDeep {function : Function} {arguments : List Value} {caller : Nat} {inside : List Task}
      {machine after : Machine}
      (h : Leads limit config ⟨.call function arguments caller, inside, machine⟩)
      (hcalls : calls inside = limit) : Arrives limit config pending (.error .tooDeep after)

-- Started in this way, a run does what evaluation does if calls may be nested `depth` deep,
-- whatever waits for it and however many calls that is.
def Realizes (depth : Nat) (start : Eval Next) (x : Eval Value) : Prop :=
  ∀ pending machine,
    Arrives (calls pending + depth) (proceed start pending machine) pending (x machine)

section

variable {limit : Nat} {config next : Config} {pending : List Task} {machine : Machine}
  {result : EStateM.Result Signal Machine Value}

theorem leads_step (h : ¬config.Excessive limit) (hs : config.step = some next) :
    Leads limit config next := .single ⟨h, hs⟩

theorem Arrives.of_leads (hl : Leads limit config next) (h : Arrives limit next pending result) :
    Arrives limit config pending result := by
  cases h with
  | value h => exact .value (hl.trans h)
  | signal hs h => exact .signal hs (hl.trans h)
  | tooDeep h hcalls => exact .tooDeep (hl.trans h) hcalls

-- What waits in front takes the value or the signal. It is not reached behind too deep calls.
theorem Arrives.task {task : Task} {final : EStateM.Result Signal Machine Value}
    (h : Arrives limit config (task :: pending) result)
    (hvalue : ∀ value after, result = .ok value after →
      Arrives limit (proceed (task.resume value) pending after) pending final)
    (hsignal : ∀ signal after, notTooDeep signal → result = .error signal after →
      Arrives limit (proceed (task.unwind signal) pending after) pending final)
    (hdeep : ∀ after, result = .error .tooDeep after →
      ∃ last, final = .error .tooDeep last) : Arrives limit config pending final := by
  cases h with
  | @value value after h =>
      have hstep : Leads limit ⟨.value value, task :: pending, after⟩
          (proceed (task.resume value) pending after) := leads_step nofun rfl
      exact (hvalue value after rfl).of_leads (h.trans hstep)
  | @signal signal after hs h =>
      have hstep : Leads limit ⟨.signal signal, task :: pending, after⟩
          (proceed (task.unwind signal) pending after) := leads_step nofun rfl
      exact (hsignal signal after hs rfl).of_leads (h.trans hstep)
  | tooDeep h hcalls =>
      obtain ⟨last, rfl⟩ := hdeep _ rfl
      exact .tooDeep h hcalls

end

namespace Realizes

variable {depth : Nat} {x : Eval Value} {y : Value → Eval Value} {control : Control}

theorem value (value : Value) : Realizes depth (pure (.value value, [])) (pure value) :=
  fun _ _ => .value .refl

theorem throw {signal : Signal} (hs : notTooDeep signal) :
    Realizes depth (throw signal) (throw signal) :=
  fun _ _ => .signal hs .refl

theorem fail (error : RuntimeError) : Realizes depth (fail error) (fail error) :=
  .throw nofun

-- What is done within one step.
theorem perform {action : Eval α} {start : α → Eval Next} {y : α → Eval Value} {V : α → Prop}
    (ha : Maintains anyMachine V notTooDeep action)
    (hn : ∀ value, V value → Realizes depth (start value) (y value)) :
    Realizes depth (action >>= start) (action >>= y) := by
  intro pending machine
  have hend := ha machine trivial
  rw [bind_run, proceed, bind_run]
  cases hr : action machine with
  | ok value after =>
      rw [hr] at hend
      exact hn value hend.2 pending after
  | error signal after =>
      rw [hr] at hend
      exact .signal hend.2 .refl

theorem answer {V : Value → Prop} (hx : Maintains anyMachine V notTooDeep x) :
    Realizes depth (Stepping.answer x) x := by
  have h : Realizes depth (Stepping.answer x) (x >>= pure) :=
    .perform hx fun result _ => .value result
  rwa [bind_pure] at h

theorem work {work : Work} (h : Realizes depth work.begin x) :
    Realizes depth (pure (.work work, [])) x := by
  intro pending machine
  exact (h pending machine).of_leads (leads_step nofun rfl)

-- What uses a value is not there for a signal.
theorem use {rest : Rest} (hx : Realizes depth (pure (control, [])) x)
    (hrest : ∀ value, Realizes depth (rest.resume value) (y value)) :
    Realizes depth (pure (control, [.use rest])) (x >>= y) := by
  intro pending machine
  refine (hx (.use rest :: pending) machine).task ?_ ?_ ?_
  · intro value after hr
    rw [bind_run, hr]
    exact hrest value pending after
  · intro signal after hs hr
    rw [bind_run, hr]
    exact .signal hs .refl
  · intro after hr
    exact ⟨after, by rw [bind_run, hr]⟩

theorem attempt {before : Option (List Value)} {rest : List Expr} {frame : Nat}
    {y : Option Value → Eval Value} (hx : Realizes depth (pure (control, [])) x)
    (hsome : ∀ value, Realizes depth (elements (before.map (· ++ [value])) frame rest)
      (y (some value)))
    (hnone : Realizes depth (elements none frame rest) (y none)) :
    Realizes depth (pure (control, [.element before rest frame])) (attempt x >>= y) := by
  intro pending machine
  refine (hx (.element before rest frame :: pending) machine).task ?_ ?_ ?_
  · intro value after hr
    rw [bind_run, attempt_run, hr]
    exact hsome value pending after
  · intro signal after hs hr
    rw [bind_run, attempt_run, hr]
    cases signal with
    | returned value => exact hnone pending after
    | failed error => exact hnone pending after
    | tooDeep => exact absurd rfl hs
    | stuck => exact .signal hs .refl
  · intro after hr
    exact ⟨after, by rw [bind_run, attempt_run, hr]⟩

theorem catchReturn (hx : Realizes depth (pure (control, [])) x) :
    Realizes depth (pure (control, [.body])) (catchReturn x) := by
  intro pending machine
  refine (hx (.body :: pending) machine).task ?_ ?_ ?_
  · intro value after hr
    rw [catchReturn_run, hr]
    exact .value .refl
  · intro signal after hs hr
    rw [catchReturn_run, hr]
    cases signal with
    | returned value => exact .value .refl
    | tooDeep => exact absurd rfl hs
    | failed error => exact .signal hs .refl
    | stuck => exact .signal hs .refl
  · intro after hr
    exact ⟨after, by rw [catchReturn_run, hr]⟩

end Realizes

-- A run that makes a call comes to what the calls of an evaluator give.
def CallsRealized (depth : Nat) (call : Caller) : Prop :=
  ∀ function arguments frame,
    Realizes depth (pure (.call function arguments frame, [])) (call function arguments frame)

-- Within a step nothing is nested too deep.
theorem carries_noCall (frame : Nat) : Carries anything anyMachine notTooDeep noCall frame :=
  (primitives_of_signals (fun _ => nofun) nofun fun _ _ => .throw nofun).carries

-- By recursion on the tree, with what calls do taken for granted.
section Trees

variable {depth : Nat} {call : Caller}

theorem capture_shallow (parameters : List (Option String)) (body : Block) :
    Maintains anyMachine anything notTooDeep (capture parameters body) :=
  ((carries_noCall 0).capture (confined_anything _) (confined_anything _)).mono
    (fun _ _ => trivial) fun _ hs => hs

-- A value is bound to a name and is the result.
theorem bound_shallow (name : String) (frame : Nat) (value : Value) :
    Maintains anyMachine anything notTooDeep (do
      bindName frame name value
      return value) :=
  ((carries_noCall frame).bindName name value (confined_anything _)).bind fun _ _ => .pure trivial

-- Values found so far, one more, and those to come, any of which may be missing.
theorem bind_append_singleton (before values : Option (List Value)) (value : Value) :
    ((before.map (· ++ [value])).bind fun first => values.map (first ++ ·)) =
      before.bind fun first =>
        ((some value).bind fun next => values.map (next :: ·)).map (first ++ ·) := by
  cases before <;> cases values <;> simp

mutual

theorem beginExpr_realizes (hc : CallsRealized depth call) (slot : Slot) (frame : Nat)
    (expr : Expr) : Realizes depth (beginExpr slot frame expr) (expr.eval call frame slot) := by
  cases expr with
  | missing => exact .fail _
  | identifier name => exact .answer ((carries_noCall frame).lookup name)
  | integer value => exact .value _
  | float value => exact .value _
  | string literal => exact .value _
  | boolean value => exact .value _
  | array literals =>
      have h := elements_realizes hc frame (some []) literals
      simp only [Option.bind_some, List.nil_append, Option.map_id'] at h
      rw [Expr.eval]
      exact h
  | binary op left right =>
      rw [Expr.eval]
      refine .use (.work (beginExpr_realizes hc .leftOperand frame left)) fun a => ?_
      refine .use (.work (beginExpr_realizes hc .rightOperand frame right)) fun b => ?_
      exact .answer ((carries_noCall frame).ofPlain (op.apply_plain a b))
  | unary op operand =>
      rw [Expr.eval]
      refine .use (.work (beginExpr_realizes hc .operand frame operand)) fun a => ?_
      exact .answer ((carries_noCall frame).ofPlain (op.apply_plain a))
  | call callee arguments =>
      rw [Expr.eval]
      refine .use (.work (beginExpr_realizes hc .callee frame callee)) fun value => ?_
      cases value with
      | function function => exact arguments_realizes hc function frame [] arguments
      | _ => exact .fail _
  | assignment name value =>
      rw [Expr.eval]
      refine .use (.work (beginExpr_realizes hc .assignedValue frame value)) fun result => ?_
      exact .answer (bound_shallow name frame result)
  | index array position =>
      rw [Expr.eval]
      refine .use (.work (beginExpr_realizes hc .array frame array)) fun value => ?_
      cases value with
      | array elements =>
          refine .use (.work (beginExpr_realizes hc .index frame position)) fun value => ?_
          exact .answer ((carries_noCall frame).element (confined_anything _) value)
      | _ => exact .fail _
  | function parameters body => exact .answer (capture_shallow parameters body)

theorem arguments_realizes (hc : CallsRealized depth call) (function : Function) (frame : Nat)
    (before : List Value) (rest : List Expr) :
    Realizes depth (arguments function before frame rest) (do
      let values ← evalArguments call frame rest
      call function (before ++ values) frame) := by
  cases rest with
  | nil =>
      rw [evalArguments, pure_bind, List.append_nil]
      exact hc function before frame
  | cons argument rest =>
      rw [evalArguments, bind_assoc]
      refine .use (.work (beginExpr_realizes hc .argument frame argument)) fun value => ?_
      have h := arguments_realizes hc function frame (before ++ [value]) rest
      simp only [List.append_assoc, List.singleton_append] at h
      simp only [bind_assoc, pure_bind]
      exact h

theorem elements_realizes (hc : CallsRealized depth call) (frame : Nat)
    (before : Option (List Value)) (rest : List Expr) :
    Realizes depth (elements before frame rest) (do
      let values ← evalElements call frame rest
      match before.bind fun first => values.map (first ++ ·) with
      | some values => return .array values
      | none => fail .invalidArrayElements) := by
  cases rest with
  | nil =>
      cases before with
      | some values =>
          simp only [evalElements, pure_bind, Option.bind_some, Option.map_some, List.append_nil]
          exact .value _
      | none => exact .fail _
  | cons element rest =>
      have helement := beginExpr_realizes hc .arrayElement frame element
      have hrest := fun before => elements_realizes hc frame before rest
      cases element with
      | missing => exact .fail _
      | _ =>
          rw [evalElements]
          · simp only [bind_assoc, pure_bind]
            refine .attempt (.work helement) (fun value => ?_) ?_
            · have h := hrest (before.map (· ++ [value]))
              simp only [bind_append_singleton] at h
              exact h
            · have h := hrest none
              simp only [Option.bind_none, Option.map_none, Option.bind_fun_none] at h ⊢
              exact h
          · simp

end

theorem condition_shallow (value : Value) :
    Maintains anyMachine anything notTooDeep (condition value) :=
  (carries_noCall 0).condition value

mutual

theorem beginStmt_realizes (hc : CallsRealized depth call) (frame : Nat) (stmt : Stmt) :
    Realizes depth (beginStmt frame stmt) (stmt.eval call frame) := by
  cases stmt with
  | bind name value =>
      cases name with
      | none => exact .fail _
      | some name =>
          rw [Stmt.eval]
          refine .use (.work (beginExpr_realizes hc .letValue frame value)) fun result => ?_
          exact .answer (bound_shallow name frame result)
  | giveBack value =>
      rw [Stmt.eval]
      exact .use (.work (beginExpr_realizes hc .returnValue frame value)) fun _ => .throw nofun
  | ifThen test consequence =>
      rw [Stmt.eval]
      refine .use (.work (beginExpr_realizes hc .condition frame test)) fun value => ?_
      refine .perform (condition_shallow value) fun answer _ => ?_
      cases answer with
      | true => exact .work (beginBlock_realizes hc .null frame consequence)
      | false => exact .value _
  | ifElse test consequence alternative =>
      rw [Stmt.eval]
      refine .use (.work (beginExpr_realizes hc .condition frame test)) fun value => ?_
      refine .perform (condition_shallow value) fun answer _ => ?_
      cases answer with
      | true => exact .work (beginBlock_realizes hc .null frame consequence)
      | false => exact .work (beginBlock_realizes hc .null frame alternative)
  | whileLoop test body => exact .fail _
  | block body =>
      rw [Stmt.eval]
      exact .work (beginBlock_realizes hc .null frame body)
  | define name parameters body =>
      rw [Stmt.eval]
      exact .answer ((capture_shallow parameters body).bind fun function _ =>
        bound_shallow name frame function)
  | expression value =>
      rw [Stmt.eval]
      exact .work (beginExpr_realizes hc .expression frame value)

theorem beginBlock_realizes (hc : CallsRealized depth call) (last : Value) (frame : Nat)
    (block : Block) :
    Realizes depth (beginBlock last frame block) (evalBlock call frame last block) := by
  cases block with
  | nil => exact .value last
  | cons stmt rest =>
      rw [evalBlock]
      refine .use (.work (beginStmt_realizes hc frame stmt)) fun value => ?_
      exact beginBlock_realizes hc value frame rest

end

end Trees

section Calls

variable {depth : Nat} {call : Caller}

theorem mapped_realizes (hc : CallsRealized depth call) (function : Function)
    (results : List Value) (frame : Nat) (rest : List Value) :
    Realizes depth (mapped function results frame rest) (do
      let more ← Builtin.mapped (fun element => call function [element] frame) rest
      return .array (results ++ more)) := by
  induction rest generalizing results with
  | nil =>
      rw [Builtin.mapped, pure_bind, List.append_nil]
      exact .value _
  | cons element rest ih =>
      rw [Builtin.mapped, bind_assoc]
      refine .use (hc function [element] frame) fun result => ?_
      have h := ih (results ++ [result])
      simp only [List.append_assoc, List.singleton_append] at h
      simp only [bind_assoc, pure_bind]
      exact h

theorem filtered_realizes (hc : CallsRealized depth call) (function : Function)
    (kept : List Value) (frame : Nat) (rest : List Value) :
    Realizes depth (filtered function kept frame rest) (do
      let more ← Builtin.filtered (fun element => call function [element] frame) rest
      return .array (kept ++ more)) := by
  induction rest generalizing kept with
  | nil =>
      rw [Builtin.filtered, pure_bind, List.append_nil]
      exact .value _
  | cons element rest ih =>
      rw [Builtin.filtered, bind_assoc]
      refine .use (hc function [element] frame) fun result => ?_
      have h := ih (if isTrue result then kept ++ [element] else kept)
      simp only [bind_assoc, pure_bind]
      cases hr : isTrue result with
      | true =>
          simp only [hr, ite_true, List.append_assoc, List.singleton_append] at h
          simpa [Rest.resume, hr] using h
      | false =>
          simp only [hr] at h
          simpa [Rest.resume, hr] using h

theorem reduced_realizes (hc : CallsRealized depth call) (function : Function)
    (before : Value) (frame : Nat) (rest : List Value) :
    Realizes depth (reduced function before frame rest)
      (Builtin.reduced (fun before element => call function [before, element] frame) before
        rest) := by
  induction rest generalizing before with
  | nil => exact .value before
  | cons element rest ih =>
      rw [Builtin.reduced]
      exact .use (hc function [before, element] frame) fun result => ih result

-- What is called back, and for what, is looked up within one step.
theorem callback_realizes {arguments : List Value} (hl : 1 < arguments.length)
    {start : List Value → Function → Eval Next} {y : List Value → Function → Eval Value}
    (h : ∀ elements function, Realizes depth (start elements function) (y elements function)) :
    Realizes depth (do
      let elements ← arrayArgument arguments
      let function ← functionArgument arguments
      start elements function) (do
      let elements ← arrayArgument arguments
      let function ← functionArgument arguments
      y elements function) := by
  have hcarries := carries_noCall 0
  refine .perform (arrayArgument_carries hcarries (confined_anything _) (by omega))
    fun elements _ => ?_
  exact .perform (functionArgument_carries hcarries (confined_anything _) hl)
    fun function _ => h elements function

theorem beginBuiltin_realizes (hc : CallsRealized depth call) (frame : Nat)
    (arguments : List Value) (builtin : Builtin)
    (hn : builtin.arity.check arguments.length = .ok ()) :
    Realizes depth (beginBuiltin frame arguments builtin) (builtin.run call frame arguments) := by
  have hrun := run_carries (carries_noCall frame) builtin (confined_anything _) hn
  cases builtin with
  | map =>
      have hl : arguments.length = 2 := Arity.check_exactly.mp hn
      refine callback_realizes (by omega) fun elements function => ?_
      exact mapped_realizes hc function [] frame elements
  | filter =>
      have hl : arguments.length = 2 := Arity.check_exactly.mp hn
      refine callback_realizes (by omega) fun elements function => ?_
      exact filtered_realizes hc function [] frame elements
  | reduce =>
      have hl : arguments.length = 3 := Arity.check_exactly.mp hn
      refine callback_realizes (by omega) fun elements function => ?_
      refine .perform (argument_carries (confined_anything _) (by omega)) fun start _ => ?_
      exact reduced_realizes hc function start frame elements
  | _ => exact .answer hrun

theorem beginFunction_realizes (hc : CallsRealized depth call) (frame : Nat)
    (arguments : List Value) (function : Function) :
    Realizes depth (beginFunction frame arguments function)
      (function.invoke call frame arguments) := by
  have hcheck := fun arity => (carries_noCall frame).checkArity arity arguments.length
  cases function with
  | user number parameters body =>
      have hbind := bindNames_carries (carries_noCall frame) parameters
        (confined_anything (valueGaps arguments))
      refine .perform (hcheck _) fun _ _ => .perform hbind fun _ _ => ?_
      exact .catchReturn (.work (beginBlock_realizes hc .null frame body))
  | builtin builtin =>
      exact .perform (hcheck _) fun _ hn => beginBuiltin_realizes hc frame arguments builtin hn

-- A body changes no frame but its own, which is therefore the last one when the body ends, even
-- if it was cut off.
theorem invoke_depth (depth : Nat) (function : Function) (arguments : List Value) (caller : Nat)
    (machine : Machine) :
    machine.environment.depth + 1 =
      (stateAfter (function.invoke (callFunction depth) machine.environment.depth arguments)
        (entered caller machine)).environment.depth := by
  have hp : Primitives (fun after => OnlyChanged machine.environment.depth
      (machine.environment.push caller).1 after.environment) anything (callFunction depth)
      machine.environment.depth :=
    callFunction_onlyChanged (fun _ => trivial) trivial depth (.inl trivial)
  have h : OnlyChanged machine.environment.depth (machine.environment.push caller).1
      (stateAfter (function.invoke (callFunction depth) machine.environment.depth arguments)
        (entered caller machine)).environment :=
    (Function.invoke_maintains hp function arguments).stateAfter (.refl _ _)
  exact (h.depth.trans (depth_push _ _)).symm

theorem enter_ite (function : Function) (arguments : List Value) (caller : Nat)
    (machine : Machine) :
    enter function arguments caller machine =
      if caller < machine.environment.depth then
        .ok (.work (.invoke function arguments machine.environment.depth),
          [.release machine.environment.depth]) (entered caller machine)
      else .error .stuck machine := by
  change (if caller < machine.environment.depth then (do
      set (entered caller machine)
      return (.work (.invoke function arguments machine.environment.depth),
        [.release machine.environment.depth]) : Eval Next)
    else throw .stuck) machine = _
  split <;> rfl

theorem proceed_release {frame : Nat} {machine : Machine}
    (hlast : frame + 1 = machine.environment.depth) (next : Eval Next) (pending : List Task) :
    proceed (do Eval.release frame; next) pending machine =
      proceed next pending
        { machine with environment := machine.environment.pop frame } := by
  rw [proceed, bind_run, release_run hlast]
  rfl

-- The frame of a call is released behind its body. Until then the call is one more around those
-- that the body makes.
theorem Realizes.inFrame {control : Control} {body : Nat → Eval Value} {caller : Nat}
    {machine : Machine} (hlive : caller < machine.environment.depth)
    (hbody : Realizes depth (pure (control, [])) (body machine.environment.depth))
    (hlast : machine.environment.depth + 1 =
      (stateAfter (body machine.environment.depth) (entered caller machine)).environment.depth)
    (pending : List Task) :
    Arrives (calls pending + (depth + 1))
      ⟨control, .release machine.environment.depth :: pending, entered caller machine⟩ pending
      (inFrame caller body machine) := by
  have h := hbody (.release machine.environment.depth :: pending) (entered caller machine)
  have hlimit : calls (.release machine.environment.depth :: pending) + depth =
      calls pending + (depth + 1) := by
    simp only [calls]
    omega
  rw [hlimit] at h
  rw [inFrame_run _ hlive]
  refine h.task ?_ ?_ ?_
  · intro value after hr
    rw [stateAfter, hr] at hlast
    rw [Task.resume, proceed_release hlast, hr]
    simp only [release_run hlast]
    exact .value .refl
  · intro signal after hs hr
    rw [stateAfter, hr] at hlast
    rw [Task.unwind, proceed_release hlast, hr]
    simp only [release_run hlast]
    exact .signal hs .refl
  · intro after hr
    rw [stateAfter, hr] at hlast
    rw [hr]
    simp only [release_run hlast]
    exact ⟨_, rfl⟩

-- The induction is on the bound: a body is no part of the tree that calls it, but there is one
-- call less left for it.
theorem callFunction_realized (depth : Nat) : CallsRealized depth (callFunction depth) := by
  induction depth with
  | zero => exact fun _ _ _ _ _ => .tooDeep .refl rfl
  | succ depth ih =>
      intro function arguments caller pending machine
      have hallowed : ¬Config.Excessive (calls pending + (depth + 1))
          ⟨.call function arguments caller, pending, machine⟩ := by
        rintro ⟨_, _, _, -, hle⟩
        exact absurd hle (by dsimp only; omega)
      have hrun : callFunction (depth + 1) function arguments caller = Eval.inFrame caller
          fun frame => function.invoke (callFunction depth) frame arguments := rfl
      refine Arrives.of_leads (leads_step hallowed rfl) ?_
      rw [hrun, proceed, enter_ite]
      by_cases hlive : caller < machine.environment.depth
      · have hbody : Realizes depth (pure (.work (.invoke function arguments
            machine.environment.depth), [])) _ :=
          .work (beginFunction_realizes ih machine.environment.depth arguments function)
        rw [if_pos hlive]
        exact hbody.inFrame hlive (invoke_depth depth function arguments caller machine) pending
      · rw [if_neg hlive, inFrame_run_of_dead _ hlive]
        exact .signal nofun .refl

end Calls

section Ends

variable {limit : Nat} {config a b : Config} {control : Control} {x : Nat → Eval Value}

-- Where a run is over that had nothing else waiting.
def final : EStateM.Result Signal Machine Value → Config
  | .ok value after => ⟨.value value, [], after⟩
  | .error signal after => ⟨.signal signal, [], after⟩

theorem step_final (result : EStateM.Result Signal Machine Value) :
    (final result).step = none := by
  cases result <;> rfl

theorem final_injective {r s : EStateM.Result Signal Machine Value} (h : final r = final s) :
    r = s := by
  cases r <;> cases s <;> simp_all [final]

-- Before a call with exactly `limit` ones around it.
def Config.Attempts (limit : Nat) (config : Config) : Prop :=
  ∃ function arguments caller, config.control = .call function arguments caller ∧
    calls config.pending = limit

theorem Config.Attempts.excessive (h : config.Attempts limit) : config.Excessive limit := by
  obtain ⟨function, arguments, caller, hc, hcalls⟩ := h
  exact ⟨function, arguments, caller, hc, Nat.le_of_eq hcalls.symm⟩

theorem not_attempts_final (result : EStateM.Result Signal Machine Value) :
    ¬(final result).Attempts limit := by
  rintro ⟨_, _, _, hc, -⟩
  cases result <;> simp [final] at hc

-- A larger bound forbids less.
theorem leads_mono {larger : Nat} (hle : limit ≤ larger) (h : Leads limit a b) :
    Leads larger a b := by
  refine Relation.ReflTransGen.mono (fun config next hstep => ⟨?_, hstep.2⟩) _ _ h
  rintro ⟨function, arguments, caller, hc, hcalls⟩
  exact hstep.1 ⟨function, arguments, caller, hc, Nat.le_trans hle hcalls⟩

theorem no_step (hend : a.step = none ∨ a.Excessive limit) :
    ¬(¬a.Excessive limit ∧ a.step = some b) := by
  rintro ⟨hallowed, hs⟩
  obtain hnone | he := hend
  · simp [hnone] at hs
  · exact hallowed he

-- A run goes one way only, so that it has no two ends.
theorem leads_unique (ha : Leads limit config a) (hb : Leads limit config b)
    (enda : a.step = none ∨ a.Excessive limit) (endb : b.step = none ∨ b.Excessive limit) :
    a = b := by
  induction ha using Relation.ReflTransGen.head_induction_on with
  | refl =>
      obtain rfl | ⟨next, hstep, -⟩ := hb.cases_head
      · rfl
      · exact absurd hstep (no_step enda)
  | head hstep _ ih =>
      obtain rfl | ⟨next, hother, hrest⟩ := hb.cases_head
      · exact absurd hstep (no_step endb)
      · obtain rfl := Option.some.inj (hstep.2.symm.trans hother.2)
        exact ih hrest

-- A run that never ends comes by everything that a bounded one comes to.
theorem exists_of_leads {run : Nat → Config}
    (hrun : ∀ n, (run n).step = some (run (n + 1))) (h : Leads limit (run 0) config) :
    ∃ n, run n = config := by
  induction h with
  | refl => exact ⟨0, rfl⟩
  | tail _ hstep ih =>
      obtain ⟨n, rfl⟩ := ih
      exact ⟨n + 1, Option.some.inj ((hrun n).symm.trans hstep.2)⟩

-- How a run ends in which calls are nested at most `limit` deep. Either it has an outcome, and
-- then it is the same run with the same outcome, on the same machine, under every larger bound,
-- and the one that evaluation has. Or the next thing to do is a call that is one too deep.
inductive EndsWithin (limit : Nat) (start : Config) (x : Nat → Eval Value) : Prop
  | outcome (result : EStateM.Result Signal Machine Value)
      (hresult : ∀ after, result ≠ .error .tooDeep after)
      (h : ∀ larger, limit ≤ larger →
        Leads larger start (final result) ∧ x larger start.machine = result)
  | attempt {last : Config} {after : Machine} (h : Leads limit start last)
      (hcall : last.Attempts limit) (hx : x limit start.machine = .error .tooDeep after)

-- Every bound on nested calls ends the run, so that a run that goes on for ever makes calls
-- inside calls to any depth.
structure Bounded (control : Control) (x : Nat → Eval Value) : Prop where
  ends : ∀ limit machine, EndsWithin limit ⟨control, [], machine⟩ x
  endless : ∀ run : Nat → Config, (run 0).control = control → (run 0).pending = [] →
    (∀ n, (run n).step = some (run (n + 1))) → ∀ limit, ∃ n, (run n).Attempts limit

theorem Arrives.leads_final {result : EStateM.Result Signal Machine Value}
    (h : Arrives limit config [] result) :
    ((∀ after, result ≠ .error .tooDeep after) ∧ Leads limit config (final result)) ∨
      (∃ after, result = .error .tooDeep after) ∧
        ∃ last, Leads limit config last ∧ last.Attempts limit := by
  cases h with
  | value h => exact .inl ⟨nofun, h⟩
  | signal hs h => exact .inl ⟨fun _ heq => hs (by cases heq; rfl), h⟩
  | tooDeep h hcalls => exact .inr ⟨⟨_, rfl⟩, _, h, _, _, _, rfl, hcalls⟩

theorem endsWithin_of_realizes
    (h : ∀ depth, Realizes depth (pure (control, [])) (x depth)) (limit : Nat)
    (machine : Machine) : EndsWithin limit ⟨control, [], machine⟩ x := by
  have harrives : ∀ bound, Arrives bound ⟨control, [], machine⟩ [] (x bound machine) := by
    intro bound
    have hb := h bound [] machine
    simp only [calls, Nat.zero_add] at hb
    exact hb
  obtain ⟨hresult, hfinal⟩ | ⟨⟨after, hx⟩, last, hlast, hcall⟩ := (harrives limit).leads_final
  · refine .outcome (x limit machine) hresult fun larger hle => ?_
    have hsame := leads_mono hle hfinal
    refine ⟨hsame, ?_⟩
    -- What evaluation comes to under the larger bound is an end of the same run.
    obtain ⟨-, hother⟩ | ⟨-, last, hlast, hcall⟩ := (harrives larger).leads_final
    · exact final_injective
        (leads_unique hother hsame (.inl (step_final _)) (.inl (step_final _)))
    · obtain rfl := leads_unique hlast hsame (.inr hcall.excessive) (.inl (step_final _))
      exact absurd hcall (not_attempts_final _)
  · exact .attempt hlast hcall hx

theorem bounded_of_realizes (h : ∀ depth, Realizes depth (pure (control, [])) (x depth)) :
    Bounded control x where
  ends := endsWithin_of_realizes h
  endless := by
    intro run hcontrol hpending hrun limit
    have hstart : run 0 = ⟨control, [], (run 0).machine⟩ := by
      rw [← hcontrol, ← hpending]
    have hends := endsWithin_of_realizes h limit (run 0).machine
    rw [← hstart] at hends
    cases hends with
    | outcome result _ h =>
        obtain ⟨n, hn⟩ := exists_of_leads hrun (h limit (Nat.le_refl _)).1
        have hstep := hrun n
        rw [hn, step_final] at hstep
        cases hstep
    | attempt h hcall _ =>
        obtain ⟨n, rfl⟩ := exists_of_leads hrun h
        exact ⟨n, hcall⟩

end Ends

-- Nothing but calls inside calls keeps evaluation from ending, whatever the tree, the machine
-- and the frame, and no bound on them shows in an outcome.
theorem evaluation_bounded (frame : Nat) :
    (∀ slot (expr : Expr), Bounded (.work (.expr slot expr frame))
      fun depth => expr.eval (callFunction depth) frame slot) ∧
    (∀ stmt : Stmt, Bounded (.work (.stmt stmt frame))
      fun depth => stmt.eval (callFunction depth) frame) ∧
    (∀ last block, Bounded (.work (.block last block frame))
      fun depth => evalBlock (callFunction depth) frame last block) ∧
    (∀ program : Program, Bounded (.work (.program program)) program.eval) ∧
    (∀ function arguments, Bounded (.call function arguments frame)
      fun depth => callFunction depth function arguments frame) := by
  have hc := callFunction_realized
  refine ⟨?_, ?_, ?_, ?_, ?_⟩
  · intro slot expr
    exact bounded_of_realizes fun depth => .work (beginExpr_realizes (hc depth) slot frame expr)
  · intro stmt
    exact bounded_of_realizes fun depth => .work (beginStmt_realizes (hc depth) frame stmt)
  · intro last block
    exact bounded_of_realizes fun depth => .work (beginBlock_realizes (hc depth) last frame block)
  · intro program
    apply bounded_of_realizes
    intro depth
    have hblock := beginBlock_realizes (hc depth) .null root program
    exact .work (Realizes.catchReturn (.work hblock))
  · intro function arguments
    exact bounded_of_realizes fun depth => hc depth function arguments frame

end Capuchin.Stepping

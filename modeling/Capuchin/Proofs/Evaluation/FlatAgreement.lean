import Capuchin.Proofs.Evaluation.Discipline
import Capuchin.Proofs.Evaluation.Flat
import Capuchin.Proofs.Evaluation.Simulation
import Mathlib

namespace Capuchin

open Eval Environment

-- What a flat map gives for a name, as a lookup.
def Flat.State.find (state : Flat.State) (name : String) : Lookup :=
  match state.names name with
  | some value => .bound value
  | none => .unbound

-- Seen from a frame, the machine is the flat state: every name has the value of the map, and
-- what is written, what can be read and the numbers of functions are the same.
structure Mirrors (frame : Nat) (machine : Machine) (state : Flat.State) : Prop where
  wellFormed : machine.environment.WellFormed
  live : frame < machine.environment.depth
  names : ∀ name, machine.environment.get frame name = state.find name
  console : state.console = machine.console
  created : state.created = machine.created

variable {frame : Nat}

theorem lookup_simulates (name : String) :
    Simulates (Mirrors frame) (lookup frame name) (Flat.lookup name) := by
  intro machine state h
  have hflat : Flat.lookup name state = (match state.names name with
      | some value => .ok value state
      | none => .error (.failed (.unknownIdentifier name)) state) := by
    change (match state.names name with
      | some value => (pure value : Flat.Run Value)
      | none => fail (.unknownIdentifier name)) state = _
    cases state.names name <;> rfl
  rw [lookup_run, h.names, hflat, Flat.State.find]
  cases state.names name with
  | some value => exact .ok value h
  | none => exact .error _ h

theorem bindName_simulates (name : String) (value : Value) :
    Simulates (Mirrors frame) (bindName frame name value) (Flat.assign name value) := by
  intro machine state h
  rw [bindName_run name value h.live]
  refine .ok () ?_
  exact {
    wellFormed := (onlyChanged_set _ _ _ _).wellFormed h.wellFormed
    live := by simpa using h.live
    names := by
      intro other
      rw [get_set_self h.live, h.names]
      by_cases ho : other = name <;> simp [Flat.State.find, ho]
    console := h.console
    created := h.created }

theorem bindNames_simulates (names : List String) (values : List Value) :
    Simulates (Mirrors frame) (bindNames frame names values) (Flat.assignAll names values) := by
  induction names generalizing values with
  | nil => exact .pure ()
  | cons name names ih =>
      cases values with
      | nil => exact .pure ()
      | cons value values => exact (bindName_simulates name value).bind fun _ => ih values

theorem readLine_simulates : Simulates (Mirrors frame) readLine Flat.readLine := by
  intro machine state h
  have hflat : Flat.readLine state =
      state.console.readLine?.elim (.error (.failed .inputExhausted) state)
        fun line => .ok line.1 { state with console := line.2 } := by
    obtain ⟨names, console, created⟩ := state
    obtain ⟨input, output⟩ := console
    cases input <;> rfl
  rw [readLine_run, hflat, h.console]
  cases machine.console.readLine? with
  | none => exact .error _ h
  | some line => exact .ok line.1 { h with console := rfl }

theorem capture_simulates (parameters : List (Option String)) (body : Block) :
    Simulates (Mirrors frame) (capture parameters body) (Flat.capture parameters body) := by
  unfold capture Flat.capture
  cases parameters.mapM id with
  | none => exact .fail _
  | some names =>
      intro machine state h
      have hn : state.created = machine.created := h.created
      change Agree _ (.ok (Value.function (.user machine.created names body)) _)
        (.ok (Value.function (.user state.created names body)) _)
      rw [hn]
      exact .ok _ { h with created := congrArg (· + 1) rfl }

-- Calls from a frame and calls on the flat map agree.
def CallsAgree (frame : Nat) (call : Caller) (flatCall : Flat.Caller) : Prop :=
  ∀ function arguments,
    Simulates (Mirrors frame) (call function arguments frame) (flatCall function arguments)

variable {call : Caller} {flatCall : Flat.Caller}

mutual

theorem Expr.eval_simulates (hc : CallsAgree frame call flatCall) (slot : Slot)
    (expr : Expr) :
    Simulates (Mirrors frame) (expr.eval call frame slot) (Flat.evalExpr flatCall slot expr) := by
  cases expr with
  | missing => exact .fail _
  | identifier name => exact lookup_simulates name
  | integer value => exact .pure _
  | float value => exact .pure _
  | string literal => exact .pure _
  | boolean value => exact .pure _
  | array elements =>
      rw [Expr.eval, Flat.evalExpr]
      refine (evalElements_simulates hc elements).bind fun values => ?_
      cases values with
      | some values => exact .pure _
      | none => exact .fail _
  | binary op left right =>
      rw [Expr.eval, Flat.evalExpr]
      refine (left.eval_simulates hc .leftOperand).bind fun a => ?_
      exact (right.eval_simulates hc .rightOperand).bind fun b => .ofExcept _
  | unary op operand =>
      rw [Expr.eval, Flat.evalExpr]
      exact (operand.eval_simulates hc .operand).bind fun a => .ofExcept _
  | call callee arguments =>
      rw [Expr.eval, Flat.evalExpr]
      refine (callee.eval_simulates hc .callee).bind fun value => ?_
      cases value with
      | function function =>
          exact (evalArguments_simulates hc arguments).bind fun values => hc function values
      | _ => exact .fail _
  | assignment name value =>
      rw [Expr.eval, Flat.evalExpr]
      refine (value.eval_simulates hc .assignedValue).bind fun result => ?_
      exact (bindName_simulates name result).bind fun _ => .pure result
  | index array position =>
      rw [Expr.eval, Flat.evalExpr]
      refine (array.eval_simulates hc .array).bind fun value => ?_
      cases value with
      | array elements =>
          exact (position.eval_simulates hc .index).bind fun value => .element elements value
      | _ => exact .fail _
  | function parameters body => exact capture_simulates parameters body

theorem evalArguments_simulates (hc : CallsAgree frame call flatCall)
    (arguments : List Expr) :
    Simulates (Mirrors frame) (evalArguments call frame arguments)
      (Flat.evalArguments flatCall arguments) := by
  cases arguments with
  | nil => exact .pure _
  | cons argument rest =>
      rw [evalArguments, Flat.evalArguments]
      refine (argument.eval_simulates hc .argument).bind fun value => ?_
      exact (evalArguments_simulates hc rest).bind fun values => .pure _

theorem evalElements_simulates (hc : CallsAgree frame call flatCall)
    (elements : List Expr) :
    Simulates (Mirrors frame) (evalElements call frame elements)
      (Flat.evalElements flatCall elements) := by
  cases elements with
  | nil => exact .pure _
  | cons element rest =>
      have hrest := evalElements_simulates hc rest
      have helement := element.eval_simulates hc .arrayElement
      cases element with
      | missing => exact .fail _
      | _ =>
          rw [evalElements, Flat.evalElements]
          · exact helement.attempt.bind fun value => hrest.bind fun values => .pure _
          all_goals simp

end

mutual

theorem Stmt.eval_simulates (hc : CallsAgree frame call flatCall) (stmt : Stmt) :
    Simulates (Mirrors frame) (stmt.eval call frame) (Flat.evalStmt flatCall stmt) := by
  cases stmt with
  | bind name value =>
      cases name with
      | none => exact .fail _
      | some name =>
          rw [Stmt.eval, Flat.evalStmt]
          refine (value.eval_simulates hc .letValue).bind fun result => ?_
          exact (bindName_simulates name result).bind fun _ => .pure result
  | giveBack value =>
      rw [Stmt.eval, Flat.evalStmt]
      exact (value.eval_simulates hc .returnValue).bind fun result => .throw _
  | ifThen test consequence =>
      rw [Stmt.eval, Flat.evalStmt]
      refine (test.eval_simulates hc .condition).bind fun value => ?_
      refine (Simulates.condition value).bind fun answer => ?_
      cases answer with
      | true => exact evalBlock_simulates hc .null consequence
      | false => exact .pure _
  | ifElse test consequence alternative =>
      rw [Stmt.eval, Flat.evalStmt]
      refine (test.eval_simulates hc .condition).bind fun value => ?_
      refine (Simulates.condition value).bind fun answer => ?_
      cases answer with
      | true => exact evalBlock_simulates hc .null consequence
      | false => exact evalBlock_simulates hc .null alternative
  | whileLoop test body => exact .fail _
  | block body => exact evalBlock_simulates hc .null body
  | define name parameters body =>
      rw [Stmt.eval, Flat.evalStmt]
      refine (capture_simulates parameters body).bind fun function => ?_
      exact (bindName_simulates name function).bind fun _ => .pure function
  | expression value => exact value.eval_simulates hc .expression

theorem evalBlock_simulates (hc : CallsAgree frame call flatCall) (last : Value)
    (block : Block) :
    Simulates (Mirrors frame) (evalBlock call frame last block)
      (Flat.evalBlock flatCall last block) := by
  cases block with
  | nil => exact .pure _
  | cons stmt rest =>
      rw [evalBlock, Flat.evalBlock]
      exact (stmt.eval_simulates hc).bind fun value => evalBlock_simulates hc value rest

end

namespace Builtin

theorem printAll_run (ending : String) (values : List Value) (machine : Machine) :
    printAll ending values machine =
      .ok () { machine with
        console := machine.console.write (String.join (values.map (·.text ++ ending))) } := by
  induction values generalizing machine with
  | nil => simp [printAll, Console.write, String.join]
  | cons value rest ih =>
      rw [printAll, bind_run, write_run]
      simp only [ih, Console.write, List.map_cons, String.join_cons, String.append_assoc]

theorem printAll_simulates (ending : String) (values : List Value) :
    Simulates (Mirrors frame) (printAll ending values)
      (Flat.write (String.join (values.map (·.text ++ ending)))) := by
  intro machine state h
  rw [printAll_run]
  exact .ok () { h with console := congrArg (Console.write · _) h.console }

variable {τ : Type} {R : Machine → τ → Prop}

theorem mapped_simulates {callback : Value → Eval Value} {other : Value → EStateM Signal τ Value}
    (hc : ∀ value, Simulates R (callback value) (other value)) (elements : List Value) :
    Simulates R (mapped callback elements) (elements.mapM other) := by
  induction elements with
  | nil => exact .pure []
  | cons element rest ih =>
      rw [mapped, List.mapM_cons]
      exact (hc element).bind fun result => ih.bind fun results => .pure _

-- To drop elements in between is to drop them at the end.
theorem filtered_simulates {callback : Value → Eval Value}
    {other : Value → EStateM Signal τ Value}
    (hc : ∀ value, Simulates R (callback value) (other value)) (elements : List Value) :
    Simulates R (filtered callback elements) (Flat.kept elements <$> elements.mapM other) := by
  induction elements with
  | nil => exact .pure []
  | cons element rest ih =>
      have hk : (Flat.kept (element :: rest) <$> (element :: rest).mapM other) = (do
          let result ← other element
          let kept ← Flat.kept rest <$> rest.mapM other
          return if isTrue result then element :: kept else kept) := by
        simp only [List.mapM_cons, map_bind, map_pure, bind_map_left]
        apply bind_congr
        intro result
        apply bind_congr
        intro results
        congr 1
        cases result with
        | boolean answer => cases answer <;> rfl
        | _ => rfl
      rw [filtered, hk]
      exact (hc element).bind fun result => ih.bind fun kept => .pure _

theorem reduced_simulates {callback : Value → Value → Eval Value}
    {other : Value → Value → EStateM Signal τ Value}
    (hc : ∀ before value, Simulates R (callback before value) (other before value))
    (before : Value) (elements : List Value) :
    Simulates R (reduced callback before elements) (elements.foldlM other before) := by
  induction elements generalizing before with
  | nil => exact .pure before
  | cons element rest ih =>
      rw [reduced, List.foldlM_cons]
      exact (hc before element).bind fun result => ih result

-- The number of arguments decides what there is to look at, their kinds decide the rest.
theorem run_simulates (hc : CallsAgree frame call flatCall) (builtin : Builtin)
    (arguments : List Value) (ha : builtin.arity.check arguments.length = .ok ()) :
    Simulates (Mirrors frame) (builtin.run call frame arguments)
      (Flat.builtin flatCall builtin arguments) := by
  cases builtin with
  | print =>
      have h : Simulates (Mirrors frame) _ _ := printAll_simulates "" arguments
      simp only [String.append_empty] at h
      exact h.bind fun _ => .pure Value.null
  | println => exact (printAll_simulates "\n" arguments).bind fun _ => .pure Value.null
  | input =>
      obtain rfl := List.length_eq_zero_iff.mp (Arity.check_exactly.mp ha)
      exact readLine_simulates.bind fun line => .pure _
  | len =>
      obtain ⟨value, rfl⟩ := List.length_eq_one_iff.mp (Arity.check_exactly.mp ha)
      cases value with
      | string text => exact .pure _
      | array elements => exact .pure _
      | _ => exact .fail _
  | push =>
      obtain ⟨first, value, rfl⟩ := List.length_eq_two.mp (Arity.check_exactly.mp ha)
      cases first with
      | array elements => exact .pure _
      | _ => exact .fail _
  | pop =>
      obtain ⟨value, rfl⟩ := List.length_eq_one_iff.mp (Arity.check_exactly.mp ha)
      cases value with
      | array elements =>
          cases elements with
          | nil => exact .fail _
          | cons element rest => exact .pure _
      | _ => exact .fail _
  | toInt =>
      obtain ⟨value, rfl⟩ := List.length_eq_one_iff.mp (Arity.check_exactly.mp ha)
      cases value with
      | string text =>
          change Simulates _ (converted text .integer ((Integer.read? text).map .integer)) _
          rw [Flat.builtin]
          cases Integer.read? text with
          | some number => exact .pure _
          | none => exact .fail _
      | _ => exact .fail _
  | toFloat =>
      obtain ⟨value, rfl⟩ := List.length_eq_one_iff.mp (Arity.check_exactly.mp ha)
      cases value with
      | string text =>
          change Simulates _ (converted text .float ((FloatText.read? text).map .float)) _
          rw [Flat.builtin]
          cases FloatText.read? text with
          | some number => exact .pure _
          | none => exact .fail _
      | _ => exact .fail _
  | map =>
      obtain ⟨first, second, rfl⟩ := List.length_eq_two.mp (Arity.check_exactly.mp ha)
      cases first with
      | array elements =>
          cases second with
          | function function =>
              exact (mapped_simulates (fun element => hc function [element]) elements).bind
                fun results => .pure _
          | _ => exact .fail _
      | _ => exact .fail _
  | filter =>
      obtain ⟨first, second, rfl⟩ := List.length_eq_two.mp (Arity.check_exactly.mp ha)
      cases first with
      | array elements =>
          cases second with
          | function function =>
              have hk : Flat.builtin flatCall .filter [.array elements, .function function] = (do
                  let kept ← Flat.kept elements <$>
                    elements.mapM fun element => flatCall function [element]
                  return .array kept) := by
                rw [Flat.builtin, bind_map_left]
              rw [hk]
              exact (filtered_simulates (fun element => hc function [element]) elements).bind
                fun results => .pure _
          | _ => exact .fail _
      | _ => exact .fail _
  | reduce =>
      obtain ⟨first, second, start, rfl⟩ :=
        List.length_eq_three.mp (Arity.check_exactly.mp ha)
      cases first with
      | array elements =>
          cases second with
          | function function =>
              exact reduced_simulates (fun before element => hc function [before, element]) start
                elements
          | _ => exact .fail _
      | _ => exact .fail _

end Builtin

theorem Function.invoke_simulates (hc : CallsAgree frame call flatCall) (function : Function)
    (arguments : List Value) :
    Simulates (Mirrors frame) (function.invoke call frame arguments)
      (Flat.invoke flatCall arguments function) := by
  cases function with
  | user number parameters body =>
      refine (Simulates.ofExcept _).bind fun _ => ?_
      refine (bindNames_simulates parameters arguments).bind fun _ => ?_
      exact (evalBlock_simulates hc .null body).catchReturn
  | builtin b =>
      rw [Function.invoke, Flat.invoke]
      cases ha : b.arity.check arguments.length with
      | error error => exact fun _ _ hr => .error _ hr
      | ok _ => exact b.run_simulates hc arguments ha

theorem Flat.onCopy_run (body : Flat.Run α) (state : Flat.State) :
    Flat.onCopy body state =
      match body state with
      | .ok value after => .ok value { after with names := state.names }
      | .error signal after => .error signal { after with names := state.names } := by
  change (do
    let result ← tryFinally' body
      fun _ => modify fun after => { after with names := state.names }
    pure result.1 : Flat.Run α) state = _
  rw [bind_run]
  simp only [tryFinally']
  cases body state <;> rfl

theorem Mirrors.entered {machine : Machine} {state : Flat.State}
    (h : Mirrors frame machine state) :
    Mirrors machine.environment.depth (entered frame machine) state where
  wellFormed := h.wellFormed.push h.live
  live := by simp [Eval.entered]
  names := fun name => (get_push_depth h.live name).trans (h.names name)
  console := h.console
  created := h.created

-- A new frame under the frame of the caller is as good as a copy of its map: releasing the one
-- and dropping the other both bring back what the caller had.
theorem inFrame_simulates {body : Nat → Eval α} {flatBody : Flat.Run α}
    (hk : ∀ environment : Environment, environment.WellFormed → frame < environment.depth →
      Maintains (fun machine => OnlyChanged environment.depth (environment.push frame).1
        machine.environment) anything notStuck (body environment.depth))
    (hb : ∀ inner, Simulates (Mirrors inner) (body inner) flatBody) :
    Simulates (Mirrors frame) (inFrame frame body) (Flat.onCopy flatBody) := by
  intro machine state h
  have hkeep : OnlyChanged machine.environment.depth (machine.environment.push frame).1
      (stateAfter (body machine.environment.depth) (entered frame machine)).environment :=
    (hk machine.environment h.wellFormed h.live).stateAfter (.refl _ _)
  have hagree := hb machine.environment.depth (entered frame machine) state h.entered
  rw [inFrame_run_of_onlyChanged h.live hkeep, Flat.onCopy_run]
  have hback : ∀ {after : Machine} {flatAfter : Flat.State},
      Mirrors machine.environment.depth after flatAfter →
      Mirrors frame { after with environment := machine.environment }
        { flatAfter with names := state.names } :=
    fun hm => ⟨h.wellFormed, h.live, h.names, hm.console, hm.created⟩
  generalize body machine.environment.depth (entered frame machine) = run at hagree
  generalize flatBody state = flatRun at hagree
  cases hagree with
  | ok value hm => exact .ok value (hback hm)
  | error signal hm => exact .error signal (hback hm)

theorem callFunction_simulates (depth : Nat) (function : Function) (arguments : List Value) :
    Simulates (Mirrors frame) (callFunction depth function arguments frame)
      (Flat.callFunction depth function arguments) := by
  induction depth generalizing frame function arguments with
  | zero => exact .throw .tooDeep
  | succ depth ih =>
      rw [callFunction, Flat.callFunction]
      apply inFrame_simulates
      · intro environment hw hlive
        have hinner : environment.depth < (environment.push frame).1.depth := by simp
        exact Function.invoke_maintains (callFunction_primitives depth (hw.push hlive) hinner)
          function arguments
      · intro inner
        exact Function.invoke_simulates ih function arguments

-- With some bound on nested calls, the run is not cut off.
def Finishes (x : Nat → EStateM Signal σ α) (state : σ) : Prop :=
  ∃ depth, outcome (x depth) state ≠ .error .tooDeep

-- Evaluation in a frame and evaluation on a flat map finish together, and under each bound they
-- end with the same outcome, the same console, and the same values for all names.
def SameRuns (frame : Nat) (machine : Machine) (state : Flat.State) (x : Nat → Eval α)
    (y : Nat → Flat.Run α) : Prop :=
  (Finishes x machine ↔ Finishes y state) ∧
    ∀ depth, outcome (x depth) machine = outcome (y depth) state ∧
      Mirrors frame (stateAfter (x depth) machine) (stateAfter (y depth) state)

theorem sameRuns_of_simulates {machine : Machine} {state : Flat.State}
    (h : Mirrors frame machine state) {x : Nat → Eval α} {y : Nat → Flat.Run α}
    (hs : ∀ depth, Simulates (Mirrors frame) (x depth) (y depth)) :
    SameRuns frame machine state x y := by
  refine ⟨?_, fun depth => ⟨(hs depth).outcome_eq h, (hs depth).stateAfter h⟩⟩
  unfold Finishes
  simp only [fun depth => (hs depth).outcome_eq h]

-- Frames cannot be told from copied maps.
theorem eval_sameRuns_flat (machine : Machine) (frame : Nat) (state : Flat.State)
    (h : Mirrors frame machine state) :
    (∀ slot expr, SameRuns frame machine state
      (fun depth => Expr.eval (callFunction depth) frame slot expr)
      (fun depth => Flat.evalExpr (Flat.callFunction depth) slot expr)) ∧
    (∀ stmt, SameRuns frame machine state
      (fun depth => Stmt.eval (callFunction depth) frame stmt)
      (fun depth => Flat.evalStmt (Flat.callFunction depth) stmt)) ∧
    (∀ last block, SameRuns frame machine state
      (fun depth => evalBlock (callFunction depth) frame last block)
      (fun depth => Flat.evalBlock (Flat.callFunction depth) last block)) ∧
    (∀ function arguments, SameRuns frame machine state
      (fun depth => callFunction depth function arguments frame)
      (fun depth => Flat.callFunction depth function arguments)) := by
  refine ⟨?_, ?_, ?_, ?_⟩
  · intro slot expr
    exact sameRuns_of_simulates h fun depth =>
      expr.eval_simulates (callFunction_simulates depth) slot
  · intro stmt
    exact sameRuns_of_simulates h fun depth => stmt.eval_simulates (callFunction_simulates depth)
  · intro last block
    exact sameRuns_of_simulates h fun depth =>
      evalBlock_simulates (callFunction_simulates depth) last block
  · intro function arguments
    exact sameRuns_of_simulates h fun depth => callFunction_simulates depth function arguments

-- A call of `fn(x) { x = 2; }` from a frame that sees `x` in the root.
theorem call_sameRuns_flat :
    let machine : Machine := { Machine.bare [] with
      environment := Environment.empty.set 0 "x" (.integer 1) }
    let state : Flat.State :=
      { names := fun name => if name = "x" then some (.integer 1) else none
        console := machine.console
        created := 0 }
    let call : Expr := .call
      (.function [some "x"] [.expression (.assignment "x" (.integer 2))]) [.identifier "x"]
    Mirrors 1 (entered 0 machine) state ∧
      SameRuns 1 (entered 0 machine) state
        (fun depth => call.eval (callFunction depth) 1 .expression)
        (fun depth => Flat.evalExpr (Flat.callFunction depth) .expression call) := by
  intro machine state call
  have hm : Mirrors 0 machine state :=
    { wellFormed := (onlyChanged_set _ _ _ _).wellFormed empty_wellFormed
      live := Nat.zero_lt_one
      names := by
        intro name
        rw [get_set_self Nat.zero_lt_one, ← root, get_empty]
        by_cases hn : name = "x" <;> simp [hn, state, Flat.State.find]
      console := rfl
      created := rfl }
  exact ⟨hm.entered, (eval_sameRuns_flat (entered 0 machine) 1 state hm.entered).1 _ call⟩

end Capuchin

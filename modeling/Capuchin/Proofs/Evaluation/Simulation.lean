import Capuchin.Evaluation.Tree
import Capuchin.Proofs.Evaluation.Steps

namespace Capuchin.Eval

-- Two runs end in the same way, in states related by `R`.
inductive Agree (R : σ → τ → Prop) : EStateM.Result Signal σ α → EStateM.Result Signal τ α → Prop
  | ok (value : α) (h : R s t) : Agree R (.ok value s) (.ok value t)
  | error (signal : Signal) (h : R s t) : Agree R (.error signal s) (.error signal t)

-- From related states, the runs of `x` and `y` agree.
def Simulates (R : σ → τ → Prop) (x : EStateM Signal σ α) (y : EStateM Signal τ α) : Prop :=
  ∀ s t, R s t → Agree R (x s) (y t)

namespace Simulates

variable {R : σ → τ → Prop}

theorem outcome_eq {x : EStateM Signal σ α} {y : EStateM Signal τ α} (h : Simulates R x y)
    {s : σ} {t : τ} (hr : R s t) : outcome x s = outcome y t := by
  have ha := h s t hr
  unfold outcome
  generalize x s = r at ha
  generalize y t = q at ha
  cases ha <;> rfl

theorem stateAfter {x : EStateM Signal σ α} {y : EStateM Signal τ α} (h : Simulates R x y)
    {s : σ} {t : τ} (hr : R s t) : R (stateAfter x s) (stateAfter y t) := by
  have ha := h s t hr
  unfold Eval.stateAfter
  generalize x s = r at ha
  generalize y t = q at ha
  cases ha with
  | ok value hr => exact hr
  | error signal hr => exact hr

theorem pure (value : α) :
    Simulates R (pure value : EStateM Signal σ α) (pure value : EStateM Signal τ α) :=
  fun _ _ hr => .ok value hr

theorem throw (signal : Signal) :
    Simulates R (throw signal : EStateM Signal σ α) (throw signal : EStateM Signal τ α) :=
  fun _ _ hr => .error signal hr

theorem fail (error : RuntimeError) :
    Simulates R (fail error : EStateM Signal σ α) (fail error : EStateM Signal τ α) :=
  fun _ _ hr => .error (.failed error) hr

theorem ofExcept (result : Except RuntimeError α) :
    Simulates R (ofExcept result : EStateM Signal σ α) (ofExcept result : EStateM Signal τ α) := by
  cases result with
  | ok value => exact .pure value
  | error error => exact .fail error

theorem bind {x : EStateM Signal σ α} {y : EStateM Signal τ α} {next : α → EStateM Signal σ β}
    {other : α → EStateM Signal τ β} (hx : Simulates R x y)
    (hn : ∀ value, Simulates R (next value) (other value)) :
    Simulates R (x >>= next) (y >>= other) := by
  intro s t hr
  have ha := hx s t hr
  rw [bind_run, bind_run]
  generalize x s = r at ha
  generalize y t = q at ha
  cases ha with
  | ok value hr => exact hn value _ _ hr
  | error signal hr => exact .error signal hr

theorem catchReturn {x : EStateM Signal σ Value} {y : EStateM Signal τ Value}
    (hx : Simulates R x y) : Simulates R (catchReturn x) (catchReturn y) := by
  intro s t hr
  have ha := hx s t hr
  rw [catchReturn_run, catchReturn_run]
  generalize x s = r at ha
  generalize y t = q at ha
  cases ha with
  | ok value hr => exact .ok value hr
  | error signal hr =>
      cases signal with
      | returned value => exact .ok value hr
      | _ => exact .error _ hr

theorem attempt {x : EStateM Signal σ α} {y : EStateM Signal τ α} (hx : Simulates R x y) :
    Simulates R (attempt x) (attempt y) := by
  intro s t hr
  have ha := hx s t hr
  rw [attempt_run, attempt_run]
  generalize x s = r at ha
  generalize y t = q at ha
  cases ha with
  | ok value hr => exact .ok _ hr
  | error signal hr =>
      cases signal with
      | returned value => exact .ok none hr
      | failed error => exact .ok none hr
      | tooDeep => exact .error _ hr
      | stuck => exact .error _ hr

theorem condition (value : Value) :
    Simulates R (condition value : EStateM Signal σ Bool)
      (condition value : EStateM Signal τ Bool) := by
  cases value with
  | boolean answer => exact .pure answer
  | _ => exact .fail _

theorem element (elements : List Value) (position : Value) :
    Simulates R (element elements position : EStateM Signal σ Value)
      (element elements position : EStateM Signal τ Value) := by
  cases position with
  | integer position =>
      unfold Capuchin.element
      dsimp only
      cases Integer.index? position elements.length with
      | none => exact .fail _
      | some index =>
          dsimp only
          cases elements[index]? with
          | none => exact .throw _
          | some value => exact .pure value
  | _ => exact .fail _

end Simulates

end Capuchin.Eval

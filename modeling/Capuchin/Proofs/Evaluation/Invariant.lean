import Capuchin.Proofs.Evaluation.Steps

namespace Capuchin.Eval

-- However a run of `x` ends that starts on a machine with `I`, the machine has `I` again. The
-- value it ends with is a `V`, the signal an `S`.
def Maintains (I : Machine → Prop) (V : α → Prop) (S : Signal → Prop) (x : Eval α) : Prop :=
  ∀ machine, I machine →
    match x machine with
    | .ok value after => I after ∧ V value
    | .error signal after => I after ∧ S signal

-- The signals of a statement list: those in `S`, and a `return` of a value in `V`.
def orReturned (V : Value → Prop) (S : Signal → Prop) : Signal → Prop
  | .returned value => V value
  | signal => S signal

namespace Maintains

variable {I : Machine → Prop} {S : Signal → Prop} {V : α → Prop} {W : β → Prop}

theorem stateAfter {x : Eval α} (hx : Maintains I V S x) {machine : Machine}
    (hi : I machine) : I (stateAfter x machine) := by
  have h := hx machine hi
  unfold Eval.stateAfter
  cases hr : x machine with
  | ok value after =>
      rw [hr] at h
      exact h.1
  | error signal after =>
      rw [hr] at h
      exact h.1

theorem signal {x : Eval α} (hx : Maintains I V S x) {machine : Machine} (hi : I machine)
    {signal : Signal} (hs : outcome x machine = .error signal) : S signal := by
  have h := hx machine hi
  unfold outcome at hs
  cases hr : x machine with
  | ok value after => simp [hr] at hs
  | error other after =>
      rw [hr] at h
      obtain rfl : other = signal := by simpa [hr] using hs
      exact h.2

theorem pure {value : α} (hv : V value) : Maintains I V S (pure value) :=
  fun _ hi => ⟨hi, hv⟩

theorem throw {signal : Signal} (hs : S signal) : Maintains I V S (throw signal) :=
  fun _ hi => ⟨hi, hs⟩

theorem fail {error : RuntimeError} (hs : S (.failed error)) : Maintains I V S (fail error) :=
  fun _ hi => ⟨hi, hs⟩

theorem mono {U : α → Prop} {T : Signal → Prop} {x : Eval α} (hx : Maintains I U T x)
    (hv : ∀ value, U value → V value) (hs : ∀ signal, T signal → S signal) :
    Maintains I V S x := by
  intro machine hi
  have h := hx machine hi
  cases hr : x machine with
  | ok value after =>
      rw [hr] at h
      exact ⟨h.1, hv value h.2⟩
  | error signal after =>
      rw [hr] at h
      exact ⟨h.1, hs signal h.2⟩

-- What gives back a part of the machine unchanged keeps every property of that part.
theorem of_view {γ : Type} {view : Machine → γ} {P : γ → Prop} {x : Eval α}
    (hx : ∀ part, P part → Maintains (fun machine => view machine = part) V S x) :
    Maintains (fun machine => P (view machine)) V S x := by
  intro machine hi
  have h := hx (view machine) hi machine rfl
  cases hr : x machine with
  | ok value after =>
      rw [hr] at h
      exact ⟨(congrArg P h.1).mpr hi, h.2⟩
  | error signal after =>
      rw [hr] at h
      exact ⟨(congrArg P h.1).mpr hi, h.2⟩

theorem bind {x : Eval α} {next : α → Eval β} (hx : Maintains I V S x)
    (hn : ∀ value, V value → Maintains I W S (next value)) : Maintains I W S (x >>= next) := by
  intro machine hi
  have h := hx machine hi
  rw [bind_run]
  cases hr : x machine with
  | ok value after =>
      rw [hr] at h
      exact hn value h.2 after h.1
  | error signal after =>
      rw [hr] at h
      exact h

-- A call keeps what its body keeps, provided that it lasts when a frame comes and when it goes.
theorem inFrame (hs : S .stuck) (parent : Nat)
    (hpush : ∀ machine, I machine → I (entered parent machine))
    (hrelease : ∀ frame, Maintains I (fun _ => True) S (release frame)) {body : Nat → Eval α}
    (hb : ∀ frame, Maintains I V S (body frame)) : Maintains I V S (inFrame parent body) := by
  intro machine hi
  by_cases hlive : parent < machine.environment.depth
  · have hbody := hb machine.environment.depth (entered parent machine) (hpush machine hi)
    rw [inFrame_run body hlive]
    cases hr : body machine.environment.depth (entered parent machine) with
    | ok value after =>
        rw [hr] at hbody
        have hback := hrelease machine.environment.depth after hbody.1
        dsimp only
        cases hreleased : release machine.environment.depth after with
        | ok _ released =>
            rw [hreleased] at hback
            exact ⟨hback.1, hbody.2⟩
        | error signal released =>
            rw [hreleased] at hback
            exact hback
    | error signal after =>
        rw [hr] at hbody
        have hback := hrelease machine.environment.depth after hbody.1
        dsimp only
        cases hreleased : release machine.environment.depth after with
        | ok _ released =>
            rw [hreleased] at hback
            exact ⟨hback.1, hbody.2⟩
        | error signal released =>
            rw [hreleased] at hback
            exact hback
  · rw [inFrame_run_of_dead body hlive]
    exact ⟨hi, hs⟩

theorem ofExcept {result : Except RuntimeError α} (hv : ∀ value, result = .ok value → V value)
    (hs : ∀ error, result = .error error → S (.failed error)) :
    Maintains I V S (ofExcept result) := by
  cases result with
  | ok value => exact .pure (hv value rfl)
  | error error => exact .fail (hs error rfl)

theorem attempt {x : Eval α} (hx : Maintains I V S x) :
    Maintains I (fun result => ∀ value, result = some value → V value) S (attempt x) := by
  intro machine hi
  have h := hx machine hi
  rw [attempt_run]
  cases hr : x machine with
  | ok value after =>
      rw [hr] at h
      exact ⟨h.1, fun _ he => Option.some.inj he ▸ h.2⟩
  | error signal after =>
      rw [hr] at h
      cases signal with
      | returned value => exact ⟨h.1, by simp⟩
      | failed error => exact ⟨h.1, by simp⟩
      | tooDeep => exact h
      | stuck => exact h

theorem catchReturn {V : Value → Prop} {x : Eval Value}
    (hx : Maintains I V (orReturned V S) x) : Maintains I V S (catchReturn x) := by
  intro machine hi
  have h := hx machine hi
  rw [catchReturn_run]
  cases hr : x machine with
  | ok value after =>
      rw [hr] at h
      exact h
  | error signal after =>
      rw [hr] at h
      cases signal with
      | returned value => exact h
      | failed error => exact h
      | tooDeep => exact h
      | stuck => exact h

end Maintains

end Capuchin.Eval

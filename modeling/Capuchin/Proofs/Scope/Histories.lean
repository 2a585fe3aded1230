import Capuchin.Proofs.Scope.Frames
import Capuchin.Proofs.Evaluation.Steps

namespace Capuchin

-- One thing done to the frames: a new one under `parent`, a binding, a search for a name, or
-- the release of the last one.
inductive Action where
  | push (parent : Nat)
  | set (frame : Nat) (name : String) (value : Value)
  | get (frame : Nat) (name : String)
  | pop

-- All that has been done since there was nothing but an empty root, the latest first.
abbrev History := List Action

namespace Action

-- What an action names is live. The root may be popped as well, which it outlasts.
def Allowed (live : Nat) : Action → Prop
  | push parent => parent < live
  | set frame _ _ => frame < live
  | get frame _ => frame < live
  | pop => True

-- The frame that an action is on.
def target (live : Nat) : Action → Nat
  | push _ => live
  | set frame _ _ => frame
  | get frame _ => frame
  | pop => live - 1

end Action

namespace Environment

def perform (environment : Environment) : Action → Environment
  | .push parent => (environment.push parent).1
  | .set frame name value => environment.set frame name value
  | .get _ _ => environment
  | .pop => environment.pop (environment.depth - 1)

-- The search for a name as a loop of at most `steps` rounds, which follows the parents
-- wherever they lead. There is no answer if it is not over by then.
def search (environment : Environment) (name : String) : Nat → Nat → Option Lookup
  | 0, _ => none
  | steps + 1, frame =>
    match environment.frames[frame]? with
    | none => some .broken
    | some f =>
      match f.bindings.find? name with
      | some value => some (.bound value)
      | none =>
        match f.parent with
        | none => some .unbound
        | some parent => environment.search name steps parent

theorem getElem?_pop (environment : Environment) {i : Nat}
    (hi : i < max (environment.depth - 1) 1) (hlive : i < environment.depth) :
    (environment.pop (environment.depth - 1)).frames[i]? = environment.frames[i]? := by
  simp only [pop, Array.take_eq_extract, Array.getElem?_extract]
  rw [if_pos (by unfold depth at *; omega), Nat.zero_add]

theorem depth_pop (environment : Environment) (hpos : 0 < environment.depth) :
    (environment.pop (environment.depth - 1)).depth = max (environment.depth - 1) 1 := by
  simp only [pop, depth, Array.take_eq_extract, Array.size_extract] at *
  omega

-- Where every parent is an earlier frame, the loop is over after as many rounds as there are
-- frames up to the first one it asks.
theorem WellFormed.search_eq_get {environment : Environment} (hw : environment.WellFormed)
    (name : String) (steps frame : Nat) (hsteps : frame < steps) :
    environment.search name steps frame = some (environment.get frame name) := by
  induction steps generalizing frame with
  | zero => omega
  | succ steps ih =>
      rw [search, get]
      cases hf : environment.frames[frame]? with
      | none => rfl
      | some f =>
          cases hb : f.bindings.find? name with
          | some value => simp [hb]
          | none =>
              cases hp : f.parent with
              | none => simp [hb, hp]
              | some parent =>
                  have hlt : parent < frame := hw.parent_lt hf hp
                  simp only [hb, hp, hlt, ite_true]
                  exact ih parent (by omega)

end Environment

-- The frames that are asked for a name in turn, from one on to the root.
inductive Chain (parent? : Nat → Option Nat) : Nat → List Nat → Prop
  | root {frame : Nat} (here : parent? frame = none) : Chain parent? frame [frame]
  | child {frame parent : Nat} {path : List Nat} (here : parent? frame = some parent)
      (above : Chain parent? parent path) : Chain parent? frame (frame :: path)

namespace Chain

variable {parent? other? : Nat → Option Nat} {frame : Nat} {path : List Nat}

theorem mem (h : Chain parent? frame path) : frame ∈ path := by
  cases h with
  | root here => exact List.mem_cons_self
  | child here above => exact List.mem_cons_self

-- A frame asks the same ones in turn for as long as those on the way keep their parents.
theorem congr (h : Chain parent? frame path)
    (heq : ∀ asked ∈ path, other? asked = parent? asked) : Chain other? frame path := by
  induction h with
  | root here => exact .root ((heq _ List.mem_cons_self).trans here)
  | child here above ih =>
      refine .child ((heq _ List.mem_cons_self).trans here) (ih ?_)
      intro asked hmem
      exact heq asked (List.mem_cons_of_mem _ hmem)

end Chain

namespace History

def after : History → Environment
  | [] => .empty
  | action :: earlier => (after earlier).perform action

-- How many frames are live after a history.
def live : History → Nat
  | [] => 1
  | .push _ :: earlier => live earlier + 1
  | .set _ _ _ :: earlier => live earlier
  | .get _ _ :: earlier => live earlier
  | .pop :: earlier => max (live earlier - 1) 1

-- Each action names only frames that are live at its time.
def Possible : History → Prop
  | [] => True
  | action :: earlier => action.Allowed (live earlier) ∧ Possible earlier

-- The parent that the latest push of a frame gave it.
def parent? : History → Nat → Option Nat
  | [], _ => none
  | .push parent :: earlier, frame =>
    if frame = live earlier then some parent else parent? earlier frame
  | _ :: earlier, frame => parent? earlier frame

-- The value of the latest setting of a name in a frame since the latest push of that frame.
def latest? : History → String → Nat → Option Value
  | [], _, _ => none
  | .push _ :: earlier, name, frame =>
    if frame = live earlier then none else latest? earlier name frame
  | .set target bound value :: earlier, name, frame =>
    if frame = target ∧ name = bound then some value else latest? earlier name frame
  | _ :: earlier, name, frame => latest? earlier name frame

theorem live_pos (history : History) : 0 < live history := by
  cases history with
  | nil => exact Nat.one_pos
  | cons action earlier =>
      have h := live_pos earlier
      cases action <;> simp only [live] <;> omega

-- An action leaves the record of every frame alone but of the one it is on.
theorem parent?_cons (action : Action) {history : History} {frame : Nat}
    (hlive : frame < live history) :
    parent? (action :: history) frame = parent? history frame := by
  cases action with
  | push parent => rw [parent?, if_neg (Nat.ne_of_lt hlive)]
  | set target bound value => rfl
  | get target bound => rfl
  | pop => rfl

theorem latest?_cons (action : Action) {history : History} (name : String) {frame : Nat}
    (hlive : frame < live history) (hother : frame ≠ action.target (live history)) :
    latest? (action :: history) name frame = latest? history name frame := by
  cases action with
  | push parent => rw [latest?, if_neg (Nat.ne_of_lt hlive)]
  | set target bound value =>
      have hne : ¬(frame = target ∧ name = bound) := fun h => hother h.1
      rw [latest?, if_neg hne]
  | get target bound => rfl
  | pop => rfl

theorem live_cons (action : Action) {history : History} {frame : Nat}
    (hlive : frame < live history) (hother : frame ≠ action.target (live history)) :
    frame < live (action :: history) := by
  cases action <;> simp only [live, Action.target] at * <;> omega

-- The frames are what the history says: as many, and in each live one the parent and the
-- values on record, where the parents on record descend to the root.
structure Recorded (history : History) : Prop where
  root : parent? history 0 = none
  descends : ∀ frame, 0 < frame → frame < live history →
    ∃ parent, parent < frame ∧ parent? history frame = some parent
  depth : (after history).depth = live history
  frames : ∀ i, i < live history → ∃ frame, (after history).frames[i]? = some frame ∧
    frame.parent = parent? history i ∧
    ∀ name, frame.bindings.find? name = latest? history name i

theorem recorded_nil : Recorded [] where
  root := rfl
  descends := by
    intro frame hpos hlive
    simp only [live] at hlive
    omega
  depth := rfl
  frames := by
    intro i hi
    obtain rfl : i = 0 := by simp only [live] at hi; omega
    exact ⟨_, rfl, rfl, fun _ => rfl⟩

namespace Recorded

variable {history : History}

theorem push (h : Recorded history) {parent : Nat} (hp : parent < live history) :
    Recorded (.push parent :: history) where
  root := (parent?_cons _ (live_pos history)).trans h.root
  descends := by
    intro frame hpos hlive
    by_cases hnew : frame = live history
    · exact ⟨parent, hnew ▸ hp, by rw [parent?, if_pos hnew]⟩
    · have hold : frame < live history := by simp only [live] at hlive; omega
      rw [parent?_cons _ hold]
      exact h.descends frame hpos hold
  depth := by simp [after, Environment.perform, live, h.depth]
  frames := by
    intro i hi
    by_cases hnew : i = live history
    · subst hnew
      refine ⟨{ bindings := [], parent := some parent }, ?_, ?_, ?_⟩
      · rw [← h.depth]
        exact Environment.getElem?_push_depth _ _
      · rw [parent?, if_pos rfl]
      · intro name
        rw [latest?, if_pos rfl]
        rfl
    · have hold : i < live history := by simp only [live] at hi; omega
      obtain ⟨frame, hf, hparent, hvalues⟩ := h.frames i hold
      refine ⟨frame, ?_, ?_, ?_⟩
      · rw [← hf]
        exact Environment.getElem?_push_of_lt _ _ _ (h.depth ▸ hold)
      · rw [parent?_cons _ hold]
        exact hparent
      · intro name
        rw [latest?_cons (.push parent) name hold hnew]
        exact hvalues name

theorem set (h : Recorded history) (target : Nat) (bound : String) (value : Value) :
    Recorded (.set target bound value :: history) where
  root := h.root
  descends := h.descends
  depth := (Environment.depth_set _ _ _ _).trans h.depth
  frames := by
    intro i (hi : i < live history)
    obtain ⟨frame, hf, hparent, hvalues⟩ := h.frames i hi
    rw [after, Environment.perform, Environment.getElem?_set, hf]
    by_cases hit : i = target
    · refine ⟨_, if_pos hit, hparent, ?_⟩
      intro name
      simp only [Bindings.find?_put, latest?, hit, true_and]
      split
      · rfl
      · exact hit ▸ hvalues name
    · refine ⟨frame, if_neg hit, hparent, ?_⟩
      intro name
      rw [latest?_cons (.set target bound value) name hi hit]
      exact hvalues name

theorem pop (h : Recorded history) : Recorded (.pop :: history) where
  root := h.root
  descends := by
    intro frame hpos hlive
    exact h.descends frame hpos (by simp only [live] at hlive; omega)
  depth := by
    have hpos : 0 < (after history).depth := h.depth ▸ live_pos history
    rw [after, Environment.perform, Environment.depth_pop _ hpos, live, h.depth]
  frames := by
    intro i hi
    have hpos := live_pos history
    have hold : i < live history := by simp only [live] at hi; omega
    obtain ⟨frame, hf, hparent, hvalues⟩ := h.frames i hold
    refine ⟨frame, ?_, hparent, hvalues⟩
    rw [← hf]
    exact Environment.getElem?_pop _ (h.depth ▸ hi) (h.depth ▸ hold)

theorem cons (h : Recorded history) (action : Action)
    (hallowed : action.Allowed (live history)) : Recorded (action :: history) := by
  cases action with
  | push parent => exact h.push hallowed
  | set target bound value => exact h.set target bound value
  | get target bound => exact ⟨h.root, h.descends, h.depth, h.frames⟩
  | pop => exact h.pop

theorem wellFormed (h : Recorded history) : (after history).WellFormed where
  root := by
    obtain ⟨frame, hf, hparent, -⟩ := h.frames 0 (live_pos history)
    rw [hf, Option.map_some, hparent, h.root]
  parents := by
    intro i frame hi hpos
    have hlive : i < live history := h.depth ▸ (Array.getElem?_eq_some_iff.mp hi).1
    obtain ⟨same, hf, hparent, -⟩ := h.frames i hlive
    obtain rfl : frame = same := Option.some.inj (hi.symm.trans hf)
    rw [hparent]
    exact h.descends i hpos hlive

theorem parent_lt (h : Recorded history) {frame parent : Nat} (hlive : frame < live history)
    (hparent : parent? history frame = some parent) : parent < frame := by
  obtain ⟨f, hf, hsame, -⟩ := h.frames frame hlive
  exact h.wellFormed.parent_lt hf (hsame.trans hparent)

theorem exists_chain (h : Recorded history) (frame : Nat) (hlive : frame < live history) :
    ∃ path, Chain (parent? history) frame path := by
  induction frame using Nat.strongRecOn with
  | ind frame ih =>
      by_cases hzero : frame = 0
      · subst hzero
        exact ⟨[0], .root h.root⟩
      · obtain ⟨parent, hlt, hparent⟩ := h.descends frame (Nat.pos_of_ne_zero hzero) hlive
        obtain ⟨path, hc⟩ := ih parent hlt (Nat.lt_trans hlt hlive)
        exact ⟨frame :: path, .child hparent hc⟩

theorem live_of_chain (h : Recorded history) {frame : Nat} {path : List Nat}
    (hc : Chain (parent? history) frame path) (hlive : frame < live history) :
    ∀ asked ∈ path, asked < live history := by
  induction hc with
  | root here => exact fun asked hmem => List.mem_singleton.mp hmem ▸ hlive
  | child here above ih =>
      have hlt := h.parent_lt hlive here
      intro asked hmem
      cases hmem with
      | head => exact hlive
      | tail _ hmem => exact ih (Nat.lt_trans hlt hlive) asked hmem

-- What a frame gives for a name is on record: the latest value set in the nearest frame on
-- the way to the root that has one.
theorem get_eq (h : Recorded history) (name : String) {frame : Nat} {path : List Nat}
    (hc : Chain (parent? history) frame path) (hlive : frame < live history) :
    (after history).get frame name =
      (path.findSome? (latest? history name)).elim .unbound .bound := by
  induction hc with
  | @root frame here =>
      obtain ⟨f, hf, hparent, hvalues⟩ := h.frames frame hlive
      rw [Environment.get, hf]
      simp only [hparent, here, hvalues, List.findSome?_cons, List.findSome?_nil]
      cases latest? history name frame <;> rfl
  | @child frame parent path here above ih =>
      obtain ⟨f, hf, hparent, hvalues⟩ := h.frames frame hlive
      have hlt : parent < frame := h.parent_lt hlive here
      rw [Environment.get, hf]
      simp only [hparent, here, hvalues, hlt, ite_true, List.findSome?_cons]
      cases latest? history name frame with
      | some value => rfl
      | none => exact ih (Nat.lt_trans hlt hlive)

end Recorded

theorem recorded_of_possible {history : History} (h : Possible history) : Recorded history := by
  induction history with
  | nil => exact recorded_nil
  | cons action earlier ih => exact (ih h.2).cons action h.1

-- The frames after a history as a tree of maps, of which only the history speaks.
structure TreeOfMaps (history : History) : Prop where
  depth : (after history).depth = live history
  -- Every frame but the root asks next an earlier one, which is the one of its latest push.
  parent : ∀ frame, 0 < frame → frame < live history → ∃ parent, parent < frame ∧
    parent? history frame = some parent ∧
    (after history).frames[frame]?.bind Frame.parent = some parent
  -- The search from a live frame is over after as many rounds as there are frames, and asks
  -- live ones only.
  ends : ∀ frame name, frame < live history →
    (after history).search name (live history) frame = some ((after history).get frame name) ∧
    (after history).get frame name ≠ .broken
  -- It finds the latest value set in the nearest frame that has been given one since its push.
  nearest : ∀ frame, frame < live history → ∃ path, Chain (parent? history) frame path ∧
    (∀ asked ∈ path, asked < live history) ∧
    ∀ name, (after history).get frame name =
      (path.findSome? (latest? history name)).elim .unbound .bound
  -- Without one, the name is unknown.
  unknown : ∀ frame path, frame < live history → Chain (parent? history) frame path →
    ∀ name (machine : Machine), machine.environment = after history →
    Eval.lookup frame name machine =
      match path.findSome? (latest? history name) with
      | some value => .ok value machine
      | none => .error (.failed (.unknownIdentifier name)) machine
  -- A new frame has the lowest number that is free, and nothing is left in it of another one
  -- that had the number.
  fresh : ∀ parent, parent < live history →
    ((after history).push parent).2 = live history ∧
    (after (.push parent :: history)).frames[live history]? =
      some { bindings := [], parent := some parent }
  -- What is done to one frame is not seen from a live one that does not ask it.
  apart : ∀ (action : Action) frame path, action.Allowed (live history) →
    frame < live history → Chain (parent? history) frame path →
    action.target (live history) ∉ path →
    ∀ name, (after (action :: history)).get frame name = (after history).get frame name

theorem Recorded.lookup_eq {history : History} (h : Recorded history) (name : String)
    {frame : Nat} {path : List Nat} (hc : Chain (parent? history) frame path)
    (hlive : frame < live history) {machine : Machine}
    (hm : machine.environment = after history) :
    Eval.lookup frame name machine =
      match path.findSome? (latest? history name) with
      | some value => .ok value machine
      | none => .error (.failed (.unknownIdentifier name)) machine := by
  rw [Eval.lookup_run, hm, h.get_eq name hc hlive]
  cases path.findSome? (latest? history name) <;> rfl

-- The frames on the way from a live one are live themselves, so that an action on none of them
-- leaves their records alone.
theorem Recorded.get_cons {history : History} (h : Recorded history) {action : Action}
    (hallowed : action.Allowed (live history)) (name : String) {frame : Nat} {path : List Nat}
    (hlive : frame < live history) (hc : Chain (parent? history) frame path)
    (hapart : action.target (live history) ∉ path) :
    (after (action :: history)).get frame name = (after history).get frame name := by
  have hpath : ∀ asked ∈ path, asked < live history := h.live_of_chain hc hlive
  have hother : ∀ asked ∈ path, asked ≠ action.target (live history) :=
    fun asked hmem heq => hapart (heq ▸ hmem)
  have hc' : Chain (parent? (action :: history)) frame path :=
    hc.congr fun asked hmem => parent?_cons action (hpath asked hmem)
  have hlive' : frame < live (action :: history) := live_cons action hlive (hother _ hc.mem)
  have hvalues : path.findSome? (latest? (action :: history) name) =
      path.findSome? (latest? history name) := by
    rw [← List.head?_filterMap, ← List.head?_filterMap]
    exact congrArg List.head? (List.filterMap_congr fun asked hmem =>
      latest?_cons action name (hpath asked hmem) (hother asked hmem))
  rw [(h.cons action hallowed).get_eq name hc' hlive', h.get_eq name hc hlive, hvalues]

theorem treeOfMaps_of_possible {history : History} (h : Possible history) :
    TreeOfMaps history := by
  have hr : Recorded history := recorded_of_possible h
  have hw : (after history).WellFormed := hr.wellFormed
  constructor
  case depth => exact hr.depth
  case parent =>
    intro frame hpos hlive
    obtain ⟨parent, hlt, hparent⟩ := hr.descends frame hpos hlive
    obtain ⟨f, hf, hsame, -⟩ := hr.frames frame hlive
    exact ⟨parent, hlt, hparent, by rw [hf, Option.bind_some, hsame, hparent]⟩
  case ends =>
    intro frame name hlive
    exact ⟨hw.search_eq_get name _ frame hlive,
      hw.get_ne_broken frame (hr.depth.symm ▸ hlive) name⟩
  case nearest =>
    intro frame hlive
    obtain ⟨path, hc⟩ := hr.exists_chain frame hlive
    exact ⟨path, hc, hr.live_of_chain hc hlive, fun name => hr.get_eq name hc hlive⟩
  case unknown =>
    intro frame path hlive hc name machine hm
    exact hr.lookup_eq name hc hlive hm
  case fresh =>
    intro parent hp
    refine ⟨hr.depth, ?_⟩
    rw [← hr.depth]
    exact Environment.getElem?_push_depth _ _
  case apart =>
    intro action frame path hallowed hlive hc hapart name
    exact hr.get_cons hallowed name hlive hc hapart

-- The number 1 is given out twice: what was set under it the first time is gone the second
-- time, and the name is asked of the root.
theorem treeOfMaps_of_possible_reused :
    let history : History := [.get 1 "x", .push 0, .pop, .set 0 "x" (.boolean true),
      .set 1 "x" (.boolean false), .push 0]
    Possible history ∧ TreeOfMaps history ∧
      (after history).get 1 "x" = .bound (.boolean true) := by
  intro history
  have hpossible : Possible history := by simp [history, Possible, Action.Allowed, live]
  have htree : TreeOfMaps history := treeOfMaps_of_possible hpossible
  have hends := (htree.ends 1 "x" (by simp [history, live])).1
  exact ⟨hpossible, htree, (Option.some.inj hends).symm⟩

end History

end Capuchin

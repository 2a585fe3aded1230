import Capuchin.Scope.Environment
import Mathlib.Tactic.ByContra

namespace Capuchin

namespace Bindings

theorem lookup_filter_ne (bindings : Bindings) (name other : String) (hne : other ≠ name) :
    List.lookup other (bindings.filter fun binding => binding.1 ≠ name) =
      List.lookup other bindings := by
  induction bindings with
  | nil => rfl
  | cons binding rest ih =>
      obtain ⟨bound, value⟩ := binding
      by_cases hb : bound = name
      · subst hb
        rw [List.filter_cons_of_neg (by simp), ih, List.lookup_cons]
        rw [beq_false_of_ne hne]
      · rw [List.filter_cons_of_pos (by simpa using hb), List.lookup_cons, List.lookup_cons, ih]

theorem find?_put (bindings : Bindings) (name other : String) (value : Value) :
    (bindings.put name value).find? other =
      if other = name then some value else bindings.find? other := by
  by_cases h : other = name
  · subst h
    simp [put, find?]
  · have hb : (other == name) = false := by simpa using h
    rw [put, find?, List.lookup_cons, hb, if_neg h]
    exact lookup_filter_ne bindings name other h

end Bindings

namespace Environment

-- The shape evaluation relies on: the root asks no other frame, and every other frame asks an
-- earlier one, so that every search for a name ends at the root.
structure WellFormed (environment : Environment) : Prop where
  root : environment.frames[0]?.map Frame.parent = some none
  parents : ∀ i frame, environment.frames[i]? = some frame → 0 < i →
    ∃ parent, parent < i ∧ frame.parent = some parent

-- Between `before` and `after`, nothing but the bindings of one frame may differ.
structure OnlyChanged (frame : Nat) (before after : Environment) : Prop where
  depth : after.depth = before.depth
  parents : ∀ i : Nat, after.frames[i]?.map Frame.parent = before.frames[i]?.map Frame.parent
  others : ∀ i : Nat, i ≠ frame → after.frames[i]? = before.frames[i]?

theorem empty_wellFormed : empty.WellFormed where
  root := rfl
  parents := by
    intro i frame hi hpos
    have hlt := (Array.getElem?_eq_some_iff.mp hi).1
    simp only [empty, List.size_toArray, List.length_cons, List.length_nil] at hlt
    omega

@[simp] theorem get_empty (name : String) : empty.get root name = .unbound := by
  rw [get]
  simp [empty, root, Bindings.find?]

theorem WellFormed.depth_pos {environment : Environment} (h : environment.WellFormed) :
    0 < environment.depth := by
  have hr := h.root
  by_contra hn
  have hs : environment.frames.size ≤ 0 := by unfold depth at hn; omega
  rw [Array.getElem?_eq_none hs] at hr
  simp at hr

namespace OnlyChanged

theorem refl (frame : Nat) (environment : Environment) :
    OnlyChanged frame environment environment :=
  ⟨rfl, fun _ => rfl, fun _ _ => rfl⟩

theorem trans {frame : Nat} {a b c : Environment} (hab : OnlyChanged frame a b)
    (hbc : OnlyChanged frame b c) : OnlyChanged frame a c :=
  ⟨hbc.depth.trans hab.depth, fun i => (hbc.parents i).trans (hab.parents i),
    fun i hi => (hbc.others i hi).trans (hab.others i hi)⟩

theorem wellFormed {frame : Nat} {before after : Environment}
    (h : OnlyChanged frame before after) (hw : before.WellFormed) : after.WellFormed where
  root := (h.parents 0).trans hw.root
  parents := by
    intro i new hi hpos
    have hp := h.parents i
    rw [hi] at hp
    obtain ⟨old, ho, he⟩ := Option.map_eq_some_iff.mp hp.symm
    obtain ⟨parent, hlt, hpar⟩ := hw.parents i old ho hpos
    exact ⟨parent, hlt, he ▸ hpar⟩

end OnlyChanged

@[simp] theorem depth_set (environment : Environment) (frame : Nat) (name : String)
    (value : Value) : (environment.set frame name value).depth = environment.depth := by
  simp [set, depth]

theorem getElem?_set (environment : Environment) (frame i : Nat) (name : String)
    (value : Value) :
    (environment.set frame name value).frames[i]? =
      if i = frame then
        environment.frames[i]?.map fun f => { f with bindings := f.bindings.put name value }
      else environment.frames[i]? := by
  by_cases h : i = frame
  · subst h
    simp [set, Array.getElem?_modify]
  · simp [set, Array.getElem?_modify, h, Ne.symm h]

theorem onlyChanged_set (environment : Environment) (frame : Nat) (name : String)
    (value : Value) :
    OnlyChanged frame environment (environment.set frame name value) where
  depth := depth_set environment frame name value
  parents := by
    intro i
    rw [getElem?_set]
    split
    · rw [Option.map_map]
      rfl
    · rfl
  others := fun i hi => by rw [getElem?_set, if_neg hi]

@[simp] theorem depth_push (environment : Environment) (parent : Nat) :
    (environment.push parent).1.depth = environment.depth + 1 := by
  simp [push, depth]

theorem getElem?_push_of_lt (environment : Environment) (parent i : Nat)
    (hi : i < environment.depth) :
    (environment.push parent).1.frames[i]? = environment.frames[i]? := by
  have hne : i ≠ environment.frames.size := Nat.ne_of_lt hi
  simp [push, Array.getElem?_push, hne]

theorem getElem?_push_depth (environment : Environment) (parent : Nat) :
    (environment.push parent).1.frames[environment.depth]? =
      some { bindings := [], parent := some parent } := by
  simp [push, depth]

theorem WellFormed.push {environment : Environment} (hw : environment.WellFormed)
    {parent : Nat} (hp : parent < environment.depth) :
    (environment.push parent).1.WellFormed where
  root := by
    rw [getElem?_push_of_lt _ _ _ hw.depth_pos]
    exact hw.root
  parents := by
    intro i frame hi hpos
    have hlt := (Array.getElem?_eq_some_iff.mp hi).1
    change i < (environment.push parent).1.depth at hlt
    rw [depth_push] at hlt
    by_cases hnew : i = environment.depth
    · subst hnew
      rw [getElem?_push_depth] at hi
      cases hi
      exact ⟨parent, hp, rfl⟩
    · rw [getElem?_push_of_lt _ _ _ (by omega)] at hi
      exact hw.parents i frame hi hpos

-- A frame is pushed, only its bindings change, and it is popped: nothing is left of it.
theorem pop_of_onlyChanged_push {environment after : Environment} {parent : Nat}
    (hpos : 0 < environment.depth)
    (h : OnlyChanged environment.depth (environment.push parent).1 after) :
    after.pop environment.depth = environment := by
  have hd : after.frames.size = environment.depth + 1 := h.depth.trans (depth_push _ _)
  have hmax : max environment.depth 1 = environment.depth := by omega
  have hframes : after.frames.take environment.depth = environment.frames := by
    apply Array.ext_getElem?
    intro i
    by_cases hi : i < environment.depth
    · have hk : (after.frames.take environment.depth)[i]? = after.frames[i]? := by
        simp [Array.getElem?_extract]
        omega
      rw [hk, h.others i (Nat.ne_of_lt hi), getElem?_push_of_lt _ _ _ hi]
    · have hs : environment.frames.size ≤ i := Nat.le_of_not_lt hi
      rw [Array.getElem?_eq_none hs, Array.getElem?_eq_none]
      simp only [Array.take_eq_extract, Array.size_extract]
      omega
  simp only [pop, hmax, hframes]

-- A lookup reads no frame but the one it starts from and earlier ones.
theorem get_congr {a b : Environment} (frame : Nat) (name : String)
    (h : ∀ i ≤ frame, a.frames[i]? = b.frames[i]?) : a.get frame name = b.get frame name := by
  induction frame using Nat.strongRecOn with
  | ind frame ih =>
      rw [get, get, h frame (Nat.le_refl frame)]
      cases hf : b.frames[frame]? with
      | none => rfl
      | some f =>
          cases hb : f.bindings.find? name with
          | some value => simp [hb]
          | none =>
              cases hp : f.parent with
              | none => simp [hb, hp]
              | some parent =>
                  simp only [hb, hp]
                  split
                  · exact ih parent ‹_› fun i hi => h i (by omega)
                  · rfl

-- Whatever a frame asks next is an earlier one.
theorem WellFormed.parent_lt {environment : Environment} (hw : environment.WellFormed)
    {i parent : Nat} {frame : Frame} (hi : environment.frames[i]? = some frame)
    (hp : frame.parent = some parent) : parent < i := by
  by_cases hzero : i = 0
  · subst hzero
    have hr := hw.root
    rw [hi] at hr
    simp [hp] at hr
  · obtain ⟨other, hlt, ho⟩ := hw.parents i frame hi (Nat.pos_of_ne_zero hzero)
    obtain rfl : parent = other := by simpa [hp] using ho
    exact hlt

theorem WellFormed.get_ne_broken {environment : Environment} (hw : environment.WellFormed)
    (frame : Nat) (hlive : frame < environment.depth) (name : String) :
    environment.get frame name ≠ .broken := by
  induction frame using Nat.strongRecOn with
  | ind frame ih =>
      rw [get]
      have hf : environment.frames[frame]? = some environment.frames[frame] :=
        Array.getElem?_eq_getElem hlive
      rw [hf]
      cases hb : environment.frames[frame].bindings.find? name with
      | some value => simp [hb]
      | none =>
          cases hp : environment.frames[frame].parent with
          | none => simp [hb, hp]
          | some parent =>
              have hlt : parent < frame := hw.parent_lt hf hp
              simpa [hb, hp, hlt] using ih parent hlt (Nat.lt_trans hlt hlive)

theorem get_set_self {environment : Environment} {frame : Nat}
    (hlive : frame < environment.depth) (name other : String) (value : Value) :
    (environment.set frame name value).get frame other =
      if other = name then .bound value else environment.get frame other := by
  have hf : environment.frames[frame]? = some environment.frames[frame] :=
    Array.getElem?_eq_getElem hlive
  have hs : (environment.set frame name value).frames[frame]? =
      some { environment.frames[frame] with
        bindings := environment.frames[frame].bindings.put name value } := by
    rw [getElem?_set, if_pos rfl, hf]
    rfl
  rw [get, get, hs, hf]
  simp only [Bindings.find?_put]
  by_cases h : other = name
  · simp [h]
  · simp only [h, ite_false]
    cases environment.frames[frame].bindings.find? other with
    | some old => rfl
    | none =>
        cases environment.frames[frame].parent with
        | none => rfl
        | some parent =>
            dsimp only
            split
            · apply get_congr
              intro i hi
              rw [getElem?_set, if_neg (by omega)]
            · rfl

-- A new frame binds nothing, so it sees what its parent sees.
theorem get_push_depth {environment : Environment} {parent : Nat}
    (hp : parent < environment.depth) (name : String) :
    (environment.push parent).1.get environment.depth name = environment.get parent name := by
  rw [get, getElem?_push_depth]
  simp only [Bindings.find?, List.lookup_nil, hp, ite_true]
  apply get_congr
  intro i hi
  exact getElem?_push_of_lt _ _ _ (by omega)

end Environment

end Capuchin

import Capuchin.Evaluation.Calls
import Mathlib

-- Equality of values is symmetric and transitive, and nothing but a NaN differs from itself. It is
-- one relation at the top and inside arrays.
namespace Capuchin

section Floats

open Float.Model UnpackedFloat FloatText

-- Only a sign may be set.
def FloatText.IsZero (x : Float32) : Prop := x.toBits.toNat % signBit = 0

theorem isNaN_iff_packedNaN (x : Float32) :
    x.isNaN ↔ x.toBits.toBitVec = packedNaN Format.binary32 :=
  isNaN_unpack_iff_of_valid x.toModel.valid

theorem isZero_iff_packedZero (x : Float32) :
    IsZero x ↔ x.toBits.toBitVec = packedZero Format.binary32 .positive ∨
      x.toBits.toBitVec = packedZero Format.binary32 .negative := by
  have hpositive : packedZero Format.binary32 .positive = 0#32 := by decide
  have hnegative : packedZero Format.binary32 .negative = 0x80000000#32 := by decide
  have hlt := x.toBits.toNat_lt
  rw [hpositive, hnegative, ← BitVec.toNat_inj, ← BitVec.toNat_inj]
  change x.toBits.toNat % 0x80000000 = 0 ↔ x.toBits.toNat = 0 ∨ x.toBits.toNat = 0x80000000
  omega

-- Floats are equal if they have the same bits or both are zero, and a NaN equals nothing.
theorem float_beq_iff (x y : Float32) :
    x == y ↔ ¬x.isNaN ∧ ¬y.isNaN ∧ (x.toBits = y.toBits ∨ IsZero x ∧ IsZero y) := by
  have h := unpack_beq_unpack_iff x.toModel.valid y.toModel.valid
  rw [isNaN_iff_packedNaN, isNaN_iff_packedNaN, isZero_iff_packedZero, isZero_iff_packedZero,
    ← UInt32.toBitVec_inj]
  refine h.trans (and_congr_right fun _ => and_congr_right fun _ => ⟨?_, ?_⟩)
  · rintro (hsame | ⟨hx, hy⟩ | ⟨hx, hy⟩)
    · exact .inl hsame
    · exact .inr ⟨.inl hx, .inr hy⟩
    · exact .inr ⟨.inr hx, .inl hy⟩
  · rintro (hsame | ⟨hx | hx, hy | hy⟩)
    · exact .inl hsame
    · exact .inl (hx.trans hy.symm)
    · exact .inr (.inl ⟨hx, hy⟩)
    · exact .inr (.inr ⟨hx, hy⟩)
    · exact .inl (hx.trans hy.symm)

theorem float_beq_symm {x y : Float32} (h : x == y) : y == x := by
  rw [float_beq_iff] at h ⊢
  obtain ⟨hx, hy, hbits | ⟨hzero, hzero'⟩⟩ := h
  · exact ⟨hy, hx, .inl hbits.symm⟩
  · exact ⟨hy, hx, .inr ⟨hzero', hzero⟩⟩

theorem float_beq_trans {x y z : Float32} (hxy : x == y) (hyz : y == z) : x == z := by
  rw [float_beq_iff] at hxy hyz ⊢
  obtain ⟨hx, -, hxy⟩ := hxy
  obtain ⟨-, hz, hyz⟩ := hyz
  refine ⟨hx, hz, ?_⟩
  obtain hbits | ⟨hzero, hzeroMiddle⟩ := hxy
  · rw [FloatText.IsZero, hbits]
    exact hyz
  · obtain hbits | ⟨-, hzero'⟩ := hyz
    · refine .inr ⟨hzero, ?_⟩
      rwa [FloatText.IsZero, ← hbits]
    · exact .inr ⟨hzero, hzero'⟩

end Floats

-- What tells functions apart: the number of a user function, the name of a builtin.
def Function.identity : Function → Nat ⊕ String
  | .user number _ _ => .inl number
  | .builtin b => .inr b.name

theorem function_beq_iff (f g : Function) : f == g ↔ f.identity = g.identity := by
  cases f with
  | user number parameters body =>
      cases g with
      | user other others rest => exact decide_eq_true_iff.trans Sum.inl_injective.eq_iff.symm
      | builtin c => exact iff_of_false Bool.false_ne_true Sum.inl_ne_inr
  | builtin b =>
      cases g with
      | user number parameters body => exact iff_of_false Bool.false_ne_true Sum.inr_ne_inl
      | builtin c =>
          refine decide_eq_true_iff.trans ⟨fun h => h ▸ rfl, fun h => ?_⟩
          exact Builtin.name_injective (Sum.inr_injective h)

-- A part of a value: the value itself, or a part of an element.
inductive Value.Inside (part : Value) : Value → Prop
  | self : Inside part part
  | element {elements : List Value} {value : Value} (hmem : value ∈ elements)
      (h : Inside part value) : Inside part (.array elements)

-- What a value is equal to.
theorem Value.same_iff (a b : Value) :
    a.same b ↔
      match a with
      | .float x => ∃ y, b = .float y ∧ x == y
      | .array elements => ∃ others, b = .array others ∧ valuesSame elements others
      | .function f => ∃ g, b = .function g ∧ f == g
      | scalar => scalar = b := by
  cases a <;> cases b <;> simp [Value.same]

theorem Value.kind_eq_of_same {a b : Value} (h : a.same b) : a.kind = b.kind := by
  rw [Value.same_iff] at h
  cases a with
  | float x =>
      obtain ⟨y, rfl, -⟩ := h
      rfl
  | array elements =>
      obtain ⟨others, rfl, -⟩ := h
      rfl
  | function f =>
      obtain ⟨g, rfl, -⟩ := h
      rfl
  | _ => exact congrArg Value.kind h

-- The laws of equality, by recursion on the first of the values.
mutual

theorem Value.same_symm {a b : Value} (h : a.same b) : b.same a := by
  have hb := (Value.same_iff a b).mp h
  rw [Value.same_iff]
  cases a with
  | float x =>
      obtain ⟨y, rfl, hxy⟩ := hb
      exact ⟨x, rfl, float_beq_symm hxy⟩
  | array elements =>
      obtain ⟨others, rfl, hsame⟩ := hb
      exact ⟨elements, rfl, valuesSame_symm hsame⟩
  | function f =>
      obtain ⟨g, rfl, hfg⟩ := hb
      refine ⟨f, rfl, ?_⟩
      rw [function_beq_iff] at hfg ⊢
      exact hfg.symm
  | _ =>
      subst hb
      rfl

theorem valuesSame_symm {as bs : List Value} (h : valuesSame as bs) : valuesSame bs as := by
  cases as with
  | nil =>
      cases bs with
      | nil => rfl
      | cons b bs => exact absurd h Bool.false_ne_true
  | cons a as =>
      cases bs with
      | nil => exact absurd h Bool.false_ne_true
      | cons b bs =>
          rw [valuesSame, Bool.and_eq_true] at h ⊢
          exact ⟨a.same_symm h.1, valuesSame_symm h.2⟩

end

mutual

theorem Value.same_trans {a b c : Value} (hab : a.same b) (hbc : b.same c) : a.same c := by
  have hb := (Value.same_iff a b).mp hab
  rw [Value.same_iff]
  cases a with
  | float x =>
      obtain ⟨y, rfl, hxy⟩ := hb
      obtain ⟨z, rfl, hyz⟩ := (Value.same_iff _ c).mp hbc
      exact ⟨z, rfl, float_beq_trans hxy hyz⟩
  | array elements =>
      obtain ⟨others, rfl, hsame⟩ := hb
      obtain ⟨rest, rfl, hother⟩ := (Value.same_iff _ c).mp hbc
      exact ⟨rest, rfl, valuesSame_trans hsame hother⟩
  | function f =>
      obtain ⟨g, rfl, hfg⟩ := hb
      obtain ⟨h, rfl, hgh⟩ := (Value.same_iff _ c).mp hbc
      refine ⟨h, rfl, ?_⟩
      rw [function_beq_iff] at hfg hgh ⊢
      exact hfg.trans hgh
  | _ =>
      subst hb
      exact (Value.same_iff _ c).mp hbc

theorem valuesSame_trans {as bs cs : List Value} (hab : valuesSame as bs)
    (hbc : valuesSame bs cs) : valuesSame as cs := by
  cases as with
  | nil =>
      cases bs with
      | nil => exact hbc
      | cons b bs => exact absurd hab Bool.false_ne_true
  | cons a as =>
      cases bs with
      | nil => exact absurd hab Bool.false_ne_true
      | cons b bs =>
          cases cs with
          | nil => exact absurd hbc Bool.false_ne_true
          | cons c cs =>
              rw [valuesSame, Bool.and_eq_true] at hab hbc ⊢
              exact ⟨a.same_trans hab.1 hbc.1, valuesSame_trans hab.2 hbc.2⟩

end

theorem Value.inside_array_iff {x : Float32} {elements : List Value} :
    Inside (.float x) (.array elements) ↔ ∃ value ∈ elements, Inside (.float x) value := by
  constructor
  · intro h
    cases h with
    | element hmem h => exact ⟨_, hmem, h⟩
  · rintro ⟨value, hmem, h⟩
    exact .element hmem h

-- A value without elements has no part but itself.
theorem Value.eq_of_inside {part value : Value} (h : Inside part value)
    (hvalue : value.kind ≠ .array) : part = value := by
  cases h with
  | self => rfl
  | element hmem h => exact absurd rfl hvalue

mutual

-- Only a NaN keeps a value from being equal to itself.
theorem Value.same_self_iff (value : Value) :
    value.same value ↔ ∀ x, Value.Inside (.float x) value → ¬x.isNaN := by
  cases value with
  | float x =>
      refine (float_beq_iff x x).trans ⟨?_, fun h => ⟨h x .self, h x .self, .inl rfl⟩⟩
      rintro ⟨hx, -⟩ y hy
      obtain rfl := Value.float.inj (Value.eq_of_inside hy Kind.noConfusion)
      exact hx
  | array elements =>
      refine (valuesSame_self_iff elements).trans ⟨?_, ?_⟩
      · intro h x hx
        obtain ⟨value, hmem, hinside⟩ := Value.inside_array_iff.mp hx
        exact h value hmem x hinside
      · intro h value hmem x hinside
        exact h x (.element hmem hinside)
  | function f =>
      refine iff_of_true ((function_beq_iff f f).mpr rfl) fun x hx => ?_
      exact Value.noConfusion (Value.eq_of_inside hx Kind.noConfusion)
  | _ =>
      refine iff_of_true ((Value.same_iff _ _).mpr rfl) fun x hx => ?_
      exact Value.noConfusion (Value.eq_of_inside hx Kind.noConfusion)

theorem valuesSame_self_iff (values : List Value) :
    valuesSame values values ↔
      ∀ value ∈ values, ∀ x, Value.Inside (.float x) value → ¬x.isNaN := by
  cases values with
  | nil => exact iff_of_true rfl fun value hmem => absurd hmem List.not_mem_nil
  | cons value rest =>
      rw [valuesSame, Bool.and_eq_true, value.same_self_iff, valuesSame_self_iff rest,
        List.forall_mem_cons]

end

-- Values that `==` is defined on: they are of one kind, and that has operators.
def Value.Comparable (a b : Value) : Prop :=
  a.kind = b.kind ∧ a.kind ≠ .null ∧ a.kind ≠ .function

section Operators

variable {a b : Value}

theorem apply_of_comparable (h : a.Comparable b) :
    BinaryOp.equal.apply a b = .ok (.boolean (a.same b)) ∧
      BinaryOp.notEqual.apply a b = .ok (.boolean !a.same b) := by
  obtain ⟨hkind, hnull, hfunction⟩ := h
  cases a <;> cases b <;>
    first
      | exact ⟨rfl, rfl⟩
      | exact absurd rfl hnull
      | exact absurd rfl hfunction
      | exact Kind.noConfusion hkind

theorem apply_of_not_comparable (h : ¬a.Comparable b) (op : BinaryOp) :
    ∃ error, op.apply a b = .error error := by
  cases a <;> cases b <;>
    first
      | exact ⟨_, rfl⟩
      | exact absurd ⟨rfl, Kind.noConfusion, Kind.noConfusion⟩ h

theorem comparable_of_apply {op : BinaryOp} {value : Value} (h : op.apply a b = .ok value) :
    a.Comparable b := by
  by_contra hnot
  obtain ⟨error, herror⟩ := apply_of_not_comparable hnot op
  simp [herror] at h

theorem apply_equal_singleton (a b : Value) :
    BinaryOp.equal.apply (.array [a]) (.array [b]) = .ok (.boolean (a.same b)) := by
  change Except.ok (Value.boolean (a.same b && true)) = _
  rw [Bool.and_true]

theorem kind_ne_of_operandMismatch {op : BinaryOp} {left right : Kind}
    (h : BinaryOp.equal.apply a b = .error (.operandMismatch op left right)) :
    a.kind ≠ b.kind := by
  intro hkind
  by_cases hc : a.Comparable b
  · simp [(apply_of_comparable hc).1] at h
  · cases a <;> cases b <;>
      first
        | exact Kind.noConfusion hkind
        | exact RuntimeError.noConfusion (Except.error.inj h)
        | exact hc ⟨rfl, Kind.noConfusion, Kind.noConfusion⟩

-- `!=` is defined where `==` is, and answers the other way round.
theorem apply_notEqual_iff (answer : Bool) :
    BinaryOp.notEqual.apply a b = .ok (.boolean !answer) ↔
      BinaryOp.equal.apply a b = .ok (.boolean answer) := by
  by_cases hc : a.Comparable b
  · obtain ⟨hequal, hnot⟩ := apply_of_comparable hc
    simp [hequal, hnot]
  · obtain ⟨error, herror⟩ := apply_of_not_comparable hc .equal
    obtain ⟨other, hother⟩ := apply_of_not_comparable hc .notEqual
    simp [herror, hother]

theorem exists_answer_of_apply {op : BinaryOp}
    (hop : op ∈ [BinaryOp.equal, .notEqual]) {value : Value} (h : op.apply a b = .ok value) :
    ∃ answer, value = .boolean answer := by
  obtain ⟨hequal, hnot⟩ := apply_of_comparable (comparable_of_apply h)
  simp only [List.mem_cons, List.not_mem_nil, or_false] at hop
  obtain rfl | rfl := hop
  · exact ⟨_, (Except.ok.inj (hequal.symm.trans h)).symm⟩
  · exact ⟨_, (Except.ok.inj (hnot.symm.trans h)).symm⟩

end Operators

-- Equality over all values: it is symmetric and transitive, and only a NaN at some depth keeps a
-- value from being equal to itself. `==` and `!=` exclude each other, and `==` says the same of two
-- values as of two arrays with them. Numbers, functions and builtins are the leaves of it.
theorem equality_laws (a b c : Value) :
    ((a.same b → b.same a) ∧ (a.same b → b.same c → a.same c) ∧
      (a.same a ↔ ∀ x, Value.Inside (.float x) a → ¬x.isNaN)) ∧
    ((∀ elements others, BinaryOp.equal.apply (.array elements) (.array others) =
        .ok (.boolean ((Value.array elements).same (.array others)))) ∧
      Builtin.isTrue a = a.same (.boolean true)) ∧
    ((∀ answer, BinaryOp.notEqual.apply a b = .ok (.boolean !answer) ↔
        BinaryOp.equal.apply a b = .ok (.boolean answer)) ∧
      ∀ op ∈ [BinaryOp.equal, .notEqual], ∀ value, op.apply a b = .ok value →
        ∃ answer, value = .boolean answer) ∧
    ((∀ value, BinaryOp.equal.apply a b = .ok value →
        BinaryOp.equal.apply (.array [a]) (.array [b]) = .ok value) ∧
      (∀ op left right, BinaryOp.equal.apply a b = .error (.operandMismatch op left right) →
        a.kind ≠ b.kind) ∧
      (a.kind ≠ b.kind → (∃ error, BinaryOp.equal.apply a b = .error error) ∧
        BinaryOp.equal.apply (.array [a]) (.array [b]) = .ok (.boolean false))) ∧
    (∀ x y : Float32, (Value.float x).same (.float y) ↔
      ¬x.isNaN ∧ ¬y.isNaN ∧ (x.toBits = y.toBits ∨ FloatText.IsZero x ∧ FloatText.IsZero y)) ∧
    ∀ f g : Function, (Value.function f).same (.function g) ↔ f.identity = g.identity := by
  refine ⟨⟨Value.same_symm, Value.same_trans, a.same_self_iff⟩, ⟨fun _ _ => rfl, ?_⟩,
    ⟨fun answer => apply_notEqual_iff answer, fun op hop value h => exists_answer_of_apply hop h⟩,
    ⟨?_, fun op left right h => kind_ne_of_operandMismatch h, ?_⟩, float_beq_iff, function_beq_iff⟩
  · cases a with
    | boolean answer => cases answer <;> rfl
    | _ => rfl
  · intro value h
    rw [← h, (apply_of_comparable (comparable_of_apply h)).1, apply_equal_singleton]
  · intro hkind
    have hsame : a.same b = false := Bool.eq_false_iff.mpr fun h => hkind (Value.kind_eq_of_same h)
    refine ⟨apply_of_not_comparable (fun hc => hkind hc.1) .equal, ?_⟩
    rw [apply_equal_singleton, hsame]

-- Arrays with a zero at some depth, which is negative in one of them.
theorem equality_laws_zeros :
    let a : Value := .array [.array [.float 0.0], .function (.builtin .len)]
    let b : Value := .array [.array [.float (-0.0)], .function (.builtin .len)]
    a.same b ∧ b.same a ∧ a.same a ∧
      BinaryOp.equal.apply (.array [a]) (.array [b]) = .ok (.boolean true) ∧
      BinaryOp.equal.apply (.array [a]) (.array [.null]) = .ok (.boolean false) := by
  intro a b
  have hab : a.same b := by decide +kernel
  obtain ⟨⟨hsymm, htrans, -⟩, -, -, ⟨hagree, -, -⟩, -⟩ := equality_laws a b a
  obtain ⟨-, -, -, ⟨-, -, hdiffer⟩, -⟩ := equality_laws a .null a
  exact ⟨hab, hsymm hab, htrans hab (hsymm hab), hagree _ (congrArg _ (congrArg _ hab)),
    (hdiffer Kind.noConfusion).2⟩

example : ((0.0 / 0.0 : Float32) == 0.0 / 0.0) = false := by decide

end Capuchin

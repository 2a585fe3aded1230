import Capuchin.Proofs.Syntax.Progress
import Capuchin.Proofs.Token.Places
import Mathlib.Data.List.Forall2

-- The parser goes by the kinds and the literals of tokens. What else tokens hold gets into the
-- diagnostics, and has no part in anything.
namespace Capuchin

-- Tokens that are alike for the parser.
structure Likeness where
  Holds : Token → Token → Prop
  kind_eq : ∀ {a b}, Holds a b → a.kind = b.kind
  literal_eq : ∀ {a b}, Holds a b → a.literal = b.literal

-- Tokens that differ in where they start.
def Likeness.shape : Likeness where
  Holds token other := token.shape = other.shape
  kind_eq := congrArg Prod.fst
  literal_eq := congrArg Prod.snd

-- Objections that differ in the tokens they point at.
inductive Diagnostic.Alike (like : Likeness) : Diagnostic → Diagnostic → Prop where
  | expectedToken : like.Holds a b →
      Alike like (.expectedToken expected a) (.expectedToken expected b)
  | expectedExpression : like.Holds a b → Alike like (.expectedExpression a) (.expectedExpression b)
  | unexpectedToken : like.Holds a b → Alike like (.unexpectedToken a) (.unexpectedToken b)
  | unexpectedEnd : like.Holds a b → Alike like (.unexpectedEnd a) (.unexpectedEnd b)
  | invalidLiteral : like.Holds a b → Alike like (.invalidLiteral a) (.invalidLiteral b)

namespace Cursor

structure Alike (like : Likeness) (first second : Cursor) : Prop where
  ahead : List.Forall₂ like.Holds first.ahead second.ahead
  finish : like.Holds first.finish second.finish

namespace Alike

variable {like : Likeness} {first second : Cursor}

theorem current (h : Alike like first second) : like.Holds first.current second.current := by
  obtain ⟨hahead, hfinish⟩ := h
  rw [Cursor.current, Cursor.current]
  generalize first.ahead = tokens, second.ahead = others at hahead
  cases hahead with
  | nil => exact hfinish
  | cons htoken _ => exact htoken

theorem advance (h : Alike like first second) : Alike like first.advance second.advance := by
  obtain ⟨hahead, hfinish⟩ := h
  refine ⟨?_, hfinish⟩
  rw [Cursor.advance, Cursor.advance]
  generalize first.ahead = tokens, second.ahead = others at hahead
  cases hahead with
  | nil => exact .nil
  | cons _ hrest => exact hrest

theorem following (h : Alike like first second) : like.Holds first.following second.following :=
  h.advance.current

end Alike

theorem alike_of_shapes {first second : Cursor}
    (h : first.ahead.map Token.shape = second.ahead.map Token.shape) :
    first.Alike .shape second := by
  rw [← List.forall₂_eq_eq_eq, List.forall₂_map_left_iff, List.forall₂_map_right_iff] at h
  exact ⟨h, rfl⟩

end Cursor

-- Readings of the same value.
structure Reading.Alike (like : Likeness) (first second : Reading α) : Prop where
  value : first.value = second.value
  rest : first.rest.Alike like second.rest
  diagnostics : List.Forall₂ (Diagnostic.Alike like) first.diagnostics second.diagnostics

namespace Reader

def Alike (like : Likeness) (first second : Reader α) : Prop :=
  ∀ a b : Cursor, a.Alike like b → (first a).Alike like (second b)

-- A reader that does the same with all tokens that are alike.
def Uniform (like : Likeness) (reader : Reader α) : Prop := Alike like reader reader

namespace Alike

variable {like : Likeness} {first second : Reader α}

theorem bind {next other : α → Reader β} (h : Alike like first second)
    (hn : ∀ value, Alike like (next value) (other value)) :
    Alike like (first >>= next) (second >>= other) := by
  intro a b hab
  obtain ⟨hvalue, hrest, hdiagnostics⟩ := h a b hab
  have hlater := hn (first a).value _ _ hrest
  refine ⟨?_, ?_, ?_⟩
  all_goals simp only [bind_apply, ← hvalue]
  · exact hlater.value
  · exact hlater.rest
  · exact List.rel_append hdiagnostics hlater.diagnostics

theorem map (f : α → β) (h : Alike like first second) :
    Alike like (f <$> first) (f <$> second) := by
  intro a b hab
  obtain ⟨hvalue, hrest, hdiagnostics⟩ := h a b hab
  refine ⟨?_, ?_, ?_⟩
  all_goals simp only [map_apply, hvalue]
  · exact hrest
  · exact hdiagnostics

theorem current_bind {next other : Token → Reader α}
    (hn : ∀ a b, like.Holds a b → Alike like (next a) (other b)) :
    Alike like (current >>= next) (current >>= other) :=
  fun a b hab => hn _ _ hab.current a b hab

theorem following_bind {next other : Token → Reader α}
    (hn : ∀ a b, like.Holds a b → Alike like (next a) (other b)) :
    Alike like (following >>= next) (following >>= other) :=
  fun a b hab => hn _ _ hab.following a b hab

theorem advance_bind {next other : Token → Reader α}
    (hn : ∀ a b, like.Holds a b → Alike like (next a) (other b)) :
    Alike like (advance >>= next) (advance >>= other) :=
  fun _ _ hab => hn _ _ hab.current _ _ hab.advance

theorem report {a b : Diagnostic} (h : a.Alike like b) : Alike like (report a) (report b) :=
  fun _ _ hab => ⟨rfl, hab, .cons h .nil⟩

-- A taken token that does not get into what follows.
theorem skip_bind (h : Alike like first second) :
    Alike like (advance >>= fun _ => first) (advance >>= fun _ => second) :=
  advance_bind fun _ _ _ => h

theorem pure (value : α) : Uniform like (pure value) := fun _ _ hab => ⟨rfl, hab, .nil⟩

theorem ite {p : Prop} [Decidable p] {yes no yes' no' : Reader α} (hy : Alike like yes yes')
    (hn : Alike like no no') : Alike like (if p then yes else no) (if p then yes' else no') := by
  split
  · exact hy
  · exact hn

theorem isAt (kind : TokenKind) : Uniform like (isAt kind) := by
  refine current_bind fun a b hab => ?_
  rw [like.kind_eq hab]
  exact .pure _

theorem expect (kind : TokenKind) : Uniform like (expect kind) := by
  refine current_bind fun a b hab => ?_
  rw [like.kind_eq hab]
  exact .ite (.skip_bind (.pure _)) (.report (.expectedToken hab))

theorem before (close : TokenKind) (h : Alike like first second) :
    Alike like (before close first) (before close second) :=
  h.bind fun _ => (expect close).bind fun _ => .pure _

theorem moreItems (h : Alike like first second) (bound : Nat) :
    Alike like (moreItems first bound) (moreItems second bound) := by
  induction bound with
  | zero => exact .pure []
  | succ bound ih =>
      refine (isAt .comma).bind fun _ => .ite (.skip_bind ?_) (.pure [])
      exact h.bind fun _ => ih.bind fun _ => .pure _

theorem items (bound : Nat) (close : TokenKind) (h : Alike like first second) :
    Alike like (items bound close first) (items bound close second) := by
  refine (isAt close).bind fun _ => .ite (.skip_bind (.pure [])) (.before close ?_)
  exact h.bind fun _ => (h.moreItems bound).bind fun _ => .pure _

theorem itemsUntil (stop : TokenKind) (h : Alike like first second) (bound : Nat) :
    Alike like (itemsUntil stop first bound) (itemsUntil stop second bound) := by
  induction bound with
  | zero => exact .pure []
  | succ bound ih =>
      refine current_bind fun a b hab => ?_
      dsimp only
      rw [like.kind_eq hab]
      exact .ite (.pure []) (h.bind fun _ => ih.bind fun _ => .pure _)

end Alike

end Reader

namespace Parser

open Reader

variable {like : Likeness}

theorem identifier_uniform : Uniform like identifier := by
  refine Alike.current_bind fun a b hab => ?_
  rw [like.kind_eq hab, like.literal_eq hab]
  split
  · exact .skip_bind (.pure _)
  · exact Alike.bind (.report (.unexpectedEnd hab)) fun _ => .pure none
  · exact Alike.bind (.report (.expectedToken hab)) fun _ => .pure none

theorem literal_alike {a b : Token} (hab : like.Holds a b) (value : Option Expr) :
    Alike like (literal a value) (literal b value) := by
  cases value with
  | some expr => exact .pure expr
  | none => exact Alike.bind (.report (.invalidLiteral hab)) fun _ => .pure _

theorem parameters_uniform (bound : Nat) : Uniform like (parameters bound) :=
  identifier_uniform.items _ _

section Parts

variable {whole : Reader Expr} {above : Precedence → Reader Expr} {statement : Reader Stmt}
  (hw : Uniform like whole) (ha : ∀ floor, Uniform like (above floor))
  (hs : Uniform like statement) (bound : Nat)

include hw in
theorem parenthesised_uniform : Uniform like (parenthesised whole) :=
  (Alike.expect _).bind fun _ => hw.before _

include hs in
theorem blockRest_uniform : Uniform like (blockRest bound statement) :=
  (hs.itemsUntil _ bound).before _

include hs in
theorem block_uniform : Uniform like (block bound statement) :=
  (Alike.expect _).bind fun _ => blockRest_uniform hs bound

include ha in
theorem binary_uniform (op : BinaryOp) (left : Expr) : Uniform like (binary above op left) := by
  refine Alike.advance_bind fun a b hab => ?_
  rw [like.kind_eq hab]
  exact (ha _).bind fun _ => .pure _

include hw in
theorem call_uniform (callee : Expr) : Uniform like (call whole bound callee) :=
  .skip_bind ((hw.items _ _).bind fun _ => .pure _)

include hw in
theorem index_uniform (array : Expr) : Uniform like (index whole array) :=
  .skip_bind ((hw.before _).bind fun _ => .pure _)

include hw in
theorem nameOrAssignment_uniform : Uniform like (nameOrAssignment whole) := by
  refine Alike.advance_bind fun a b hab => ?_
  rw [like.literal_eq hab]
  exact (Alike.isAt _).bind fun _ => .ite (.skip_bind (hw.bind fun _ => .pure _)) (.pure _)

include hw in
theorem grouped_uniform : Uniform like (grouped whole) := .skip_bind (hw.before _)

include hw in
theorem arrayLiteral_uniform : Uniform like (arrayLiteral whole bound) :=
  .skip_bind ((hw.items _ _).bind fun _ => .pure _)

include hs in
theorem functionLiteral_uniform : Uniform like (functionLiteral bound statement) :=
  .skip_bind ((Alike.expect _).bind fun _ => (parameters_uniform bound).bind fun _ =>
    (block_uniform hs bound).bind fun _ => .pure _)

include ha in
theorem unary_uniform (op : UnaryOp) : Uniform like (unary above op) :=
  .skip_bind ((ha _).bind fun _ => .pure _)

include ha hs in
theorem operandWith_uniform : Uniform like (operandWith above bound statement) := by
  refine Alike.current_bind fun a b hab => ?_
  rw [like.kind_eq hab, like.literal_eq hab]
  split
  · exact Alike.bind (.report (.unexpectedEnd hab)) fun _ => .pure none
  · exact .pure none
  · exact Alike.advance_bind fun _ _ _ => (literal_alike hab _).map _
  · exact Alike.advance_bind fun _ _ _ => (literal_alike hab _).map _
  · exact .skip_bind (.pure _)
  · exact .skip_bind (.pure _)
  · exact .skip_bind (.pure _)
  · exact (nameOrAssignment_uniform (ha _)).map _
  · exact (grouped_uniform (ha _)).map _
  · exact (arrayLiteral_uniform (ha _) bound).map _
  · exact (functionLiteral_uniform hs bound).map _
  · split
    · exact (unary_uniform ha _).map _
    · exact Alike.bind (.report (.unexpectedToken hab)) fun _ => .skip_bind (.pure none)

include ha in
theorem operatorsWith_uniform {operators : Expr → Reader Expr}
    (ho : ∀ left, Uniform like (operators left)) (floor : Precedence) (left : Expr) :
    Uniform like (operatorsWith above bound operators floor left) := by
  refine Alike.current_bind fun a b hab => ?_
  dsimp only
  rw [like.kind_eq hab]
  refine Alike.ite (.pure left) ?_
  split
  · exact (binary_uniform ha _ _).bind ho
  · exact (call_uniform (ha _) bound _).bind ho
  · exact (index_uniform (ha _) _).bind ho
  · exact .pure left

theorem expressionWith_uniform {operand : Reader (Option Expr)} {operators : Expr → Reader Expr}
    (hd : Uniform like operand) (ho : ∀ left, Uniform like (operators left)) :
    Uniform like (expressionWith operand operators) := by
  refine hd.bind fun left => ?_
  split
  · exact .pure _
  · exact ho _

include hw in
theorem letStatement_uniform : Uniform like (letStatement whole) := by
  refine .skip_bind (identifier_uniform.bind fun _ => (Alike.expect _).bind fun _ =>
    hw.bind fun value => ?_)
  split
  · exact Alike.current_bind fun _ _ hab =>
      Alike.bind (.report (.expectedExpression hab)) fun _ => .pure _
  · exact (Alike.expect _).bind fun _ => .pure _

include hw in
theorem returnStatement_uniform : Uniform like (returnStatement whole) :=
  .skip_bind ((hw.before _).bind fun _ => .pure _)

include hw hs in
theorem ifStatement_uniform : Uniform like (ifStatement whole bound statement) := by
  refine .skip_bind ((parenthesised_uniform hw).bind fun _ => (block_uniform hs bound).bind fun _ =>
    (Alike.isAt _).bind fun _ => .ite (.skip_bind ?_) (.pure _))
  exact (block_uniform hs bound).bind fun _ => .pure _

include hw hs in
theorem whileStatement_uniform : Uniform like (whileStatement whole bound statement) :=
  .skip_bind ((parenthesised_uniform hw).bind fun _ => (block_uniform hs bound).bind fun _ =>
    .pure _)

include hs in
theorem blockStatement_uniform : Uniform like (blockStatement bound statement) :=
  .skip_bind ((blockRest_uniform hs bound).bind fun _ => .pure _)

include hs in
theorem definition_uniform : Uniform like (definition bound statement) := by
  refine .skip_bind (Alike.advance_bind fun a b hab => ?_)
  rw [like.literal_eq hab]
  exact (Alike.expect _).bind fun _ => (parameters_uniform bound).bind fun _ =>
    (block_uniform hs bound).bind fun _ => .pure _

include hw in
theorem expressionStatement_uniform : Uniform like (expressionStatement whole) :=
  (hw.before _).bind fun _ => .pure _

include hw hs in
theorem statementWith_uniform : Uniform like (statementWith whole bound statement) := by
  refine Alike.current_bind fun a b hab => Alike.following_bind fun c d hcd => ?_
  rw [like.kind_eq hab, like.kind_eq hcd]
  split
  · exact letStatement_uniform hw
  · exact returnStatement_uniform hw
  · exact ifStatement_uniform hw hs bound
  · exact whileStatement_uniform hw hs bound
  · exact blockStatement_uniform hs bound
  · exact definition_uniform hs bound
  · exact expressionStatement_uniform hw

end Parts

theorem uniform (like : Likeness) (fuel : Nat) :
    (∀ floor, Uniform like (expression fuel floor)) ∧
      (∀ floor left, Uniform like (operators fuel floor left)) ∧
      Uniform like (operand fuel) ∧ Uniform like (statement fuel) := by
  induction fuel with
  | zero => exact ⟨fun _ => .pure _, fun _ _ => .pure _, .pure _, .pure _⟩
  | succ fuel ih =>
      obtain ⟨he, ho, hd, hs⟩ := ih
      exact ⟨fun floor => expressionWith_uniform hd (ho floor),
        fun floor => operatorsWith_uniform he fuel (ho floor) floor,
        operandWith_uniform he hs fuel, statementWith_uniform (he _) hs fuel⟩

end Parser

-- Programs of tokens that are alike are the same.
theorem Cursor.parse_alike {like : Likeness} {first second : Cursor}
    (h : first.Alike like second) : first.parse.Alike like second.parse := by
  have hfuel : Parser.fuelFor first = Parser.fuelFor second := by
    rw [Parser.fuelFor, Parser.fuelFor, h.ahead.length_eq]
  rw [parse, parse, hfuel]
  exact (Parser.uniform like _).2.2.2.itemsUntil .eof _ first second h

end Capuchin

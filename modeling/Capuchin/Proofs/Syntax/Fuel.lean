import Capuchin.Proofs.Syntax.Progress

-- The parser without fuel. Enough of it makes no difference, so each part of the parser can be
-- given what it needs where it stands.
namespace Capuchin

namespace Cursor

-- How many tokens stand before the end.
def room (cursor : Cursor) : Nat := cursor.ahead.length

theorem Within.room_le {a b : Cursor} (h : a.Within b) : a.room ≤ b.room := h.length_le

theorem room_advance_lt {cursor : Cursor} (h : cursor.current.kind ≠ .eof) :
    cursor.advance.room < cursor.room :=
  length_advance_lt h

theorem room_pos {cursor : Cursor} (h : cursor.current.kind ≠ .eof) : 0 < cursor.room :=
  Nat.lt_of_le_of_lt (Nat.zero_le _) (room_advance_lt h)

end Cursor

namespace Reader

section Lists

variable {item : Reader α} {bound : Nat} {cursor : Cursor}

theorem moreItems_of_ne (h : cursor.current.kind ≠ .comma) :
    moreItems item bound cursor = ⟨[], cursor, []⟩ := by
  cases bound with
  | zero => rfl
  | succ bound => simp [moreItems, h]

theorem moreItems_succ (h : cursor.current.kind = .comma) :
    moreItems item (bound + 1) cursor = (do
      let next ← item
      return next :: (← moreItems item bound) : Reader (List α)) cursor.advance := by
  simp [moreItems, h]

theorem itemsUntil_of_stop {stop : TokenKind}
    (h : cursor.current.kind = .eof ∨ cursor.current.kind = stop) :
    itemsUntil stop item bound cursor = ⟨[], cursor, []⟩ := by
  cases bound with
  | zero => rfl
  | succ bound => simp [itemsUntil, h]

theorem itemsUntil_succ {stop : TokenKind}
    (h : ¬(cursor.current.kind = .eof ∨ cursor.current.kind = stop)) :
    itemsUntil stop item (bound + 1) cursor = (do
      let first ← item
      return first :: (← itemsUntil stop item bound) : Reader (List α)) cursor := by
  simp [itemsUntil, h]

end Lists

-- At a cursor two readers do the same.
def AgreesAt (cursor : Cursor) (first second : Reader α) : Prop := first cursor = second cursor

theorem agreesAt_current_bind {cursor : Cursor} {first second : Token → Reader α} :
    AgreesAt cursor (current >>= first) (current >>= second) ↔
      AgreesAt cursor (first cursor.current) (second cursor.current) := Iff.rfl

theorem agreesAt_following_bind {cursor : Cursor} {first second : Token → Reader α} :
    AgreesAt cursor (following >>= first) (following >>= second) ↔
      AgreesAt cursor (first cursor.following) (second cursor.following) := Iff.rfl

theorem AgreesAt.map (f : α → β) {cursor : Cursor} {first second : Reader α}
    (h : AgreesAt cursor first second) : AgreesAt cursor (f <$> first) (f <$> second) := by
  rw [AgreesAt] at h ⊢
  simp only [map_apply, h]

-- With fewer tokens to come than a bound, two readers do the same.
def AgreeBelow (room : Nat) (first second : Reader α) : Prop :=
  ∀ cursor : Cursor, cursor.room < room → AgreesAt cursor first second

namespace AgreeBelow

variable {room : Nat} {first second : Reader α}

theorem refl (reader : Reader α) : AgreeBelow room reader reader := fun _ _ => rfl

theorem mono {less : Nat} (hle : less ≤ room) (h : AgreeBelow room first second) :
    AgreeBelow less first second :=
  fun cursor hc => h cursor (Nat.lt_of_lt_of_le hc hle)

theorem bindAt {next other : α → Reader β} {cursor : Cursor} (h : AgreesAt cursor first second)
    (hs : Stays second) (hc : cursor.room < room)
    (hn : ∀ value, AgreeBelow room (next value) (other value)) :
    AgreesAt cursor (first >>= next) (second >>= other) := by
  have hrest := hn (second cursor).value _ (Nat.lt_of_le_of_lt (hs cursor).room_le hc)
  rw [AgreesAt] at h hrest ⊢
  simp only [bind_apply, h, hrest]

theorem bind {next other : α → Reader β} (h : AgreeBelow room first second) (hs : Stays second)
    (hn : ∀ value, AgreeBelow room (next value) (other value)) :
    AgreeBelow room (first >>= next) (second >>= other) :=
  fun cursor hc => bindAt (h cursor hc) hs hc hn

theorem ite {p : Prop} [Decidable p] {a b c d : Reader α} (hy : AgreeBelow room a b)
    (hn : AgreeBelow room c d) :
    AgreeBelow room (if p then a else c) (if p then b else d) := by
  split
  · exact hy
  · exact hn

theorem before (close : TokenKind) (h : AgreeBelow room first second) (hs : Stays second) :
    AgreeBelow room (before close first) (before close second) :=
  h.bind hs fun _ => .refl _

-- Each comma is a token, so a bound that reaches to the end is not met.
theorem moreItems (h : AgreeBelow room first second) (hs : Stays second) {a b : Nat}
    (ha : room ≤ a + 1) (hb : room ≤ b + 1) :
    AgreeBelow room (moreItems first a) (moreItems second b) := by
  induction a generalizing room b with
  | zero =>
      intro cursor hc
      have hk : cursor.current.kind ≠ .comma := by
        intro hk
        have hpos := cursor.room_pos (by simp [hk])
        omega
      rw [AgreesAt, moreItems_of_ne hk, moreItems_of_ne hk]
  | succ a ih =>
      intro cursor hc
      by_cases hk : cursor.current.kind = .comma
      · have hlt := cursor.room_advance_lt (by simp [hk])
        obtain ⟨b, rfl⟩ : ∃ k, b = k + 1 := ⟨b - 1, by omega⟩
        obtain ⟨less, rfl⟩ : ∃ k, room = k + 1 := ⟨room - 1, by omega⟩
        have h := h.mono (Nat.le_succ less)
        have hrest : AgreeBelow less (Reader.moreItems first a) (Reader.moreItems second b) :=
          ih h (by omega) (by omega)
        have hi : cursor.advance.room < less := by omega
        rw [AgreesAt, moreItems_succ hk, moreItems_succ hk]
        exact h.bind hs (fun _ => hrest.bind (hs.moreItems b) fun _ => .refl _) _ hi
      · rw [AgreesAt, moreItems_of_ne hk, moreItems_of_ne hk]

theorem items (close : TokenKind) (h : AgreeBelow room first second) (hs : Stays second)
    {a b : Nat} (ha : room ≤ a + 1) (hb : room ≤ b + 1) :
    AgreeBelow room (items a close first) (items b close second) := by
  refine bind (.refl _) (.isAt close) fun _ => .ite (.refl _) (before close ?_ ?_)
  · exact h.bind hs fun _ => (h.moreItems hs ha hb).bind (hs.moreItems b) fun _ => .refl _
  · exact hs.bind fun _ => (hs.moreItems b).bind fun _ => .pure _

-- Items that take a token each are no more than there are tokens.
theorem itemsUntil (stop : TokenKind) (h : AgreeBelow room first second)
    (ht : ∀ cursor : Cursor, cursor.room < room → cursor.current.kind ≠ .eof →
      Takes second cursor)
    {a b : Nat} (ha : room ≤ a + 1) (hb : room ≤ b + 1) :
    AgreeBelow room (itemsUntil stop first a) (itemsUntil stop second b) := by
  induction a generalizing room b with
  | zero =>
      intro cursor hc
      have hk : cursor.current.kind = .eof := by
        by_cases hk : cursor.current.kind = .eof
        · exact hk
        · have hpos := cursor.room_pos hk
          omega
      rw [AgreesAt, itemsUntil_of_stop (.inl hk), itemsUntil_of_stop (.inl hk)]
  | succ a ih =>
      intro cursor hc
      by_cases hk : cursor.current.kind = .eof ∨ cursor.current.kind = stop
      · rw [AgreesAt, itemsUntil_of_stop hk, itemsUntil_of_stop hk]
      · have hne : cursor.current.kind ≠ .eof := fun he => hk (.inl he)
        have hlt := cursor.room_advance_lt hne
        have hle := Cursor.Within.room_le (ht cursor hc hne)
        obtain ⟨b, rfl⟩ : ∃ k, b = k + 1 := ⟨b - 1, by omega⟩
        obtain ⟨less, rfl⟩ : ∃ k, room = k + 1 := ⟨room - 1, by omega⟩
        have hrest : AgreesAt (second cursor).rest (Reader.itemsUntil stop first a)
            (Reader.itemsUntil stop second b) :=
          ih (h.mono (Nat.le_succ less)) (fun inner hi => ht inner (by omega)) (by omega)
            (by omega) _ (by omega)
        have hfirst : first cursor = second cursor := h cursor hc
        rw [AgreesAt] at hrest ⊢
        rw [itemsUntil_succ hk, itemsUntil_succ hk]
        simp only [bind_apply, hfirst, hrest, pure_apply]

end AgreeBelow

namespace AgreesAt

variable {room : Nat} {cursor : Cursor}

-- A taken token leaves room for one token less.
theorem takes_bind {first second : Reader α} {next other : α → Reader β}
    (h : AgreesAt cursor first second) (ht : Takes second cursor)
    (hk : cursor.current.kind ≠ .eof) (hc : cursor.room < room + 1)
    (hn : ∀ value, AgreeBelow room (next value) (other value)) :
    AgreesAt cursor (first >>= next) (second >>= other) := by
  have hlt := cursor.room_advance_lt hk
  have hle := Cursor.Within.room_le ht
  have hrest := hn (second cursor).value (second cursor).rest (by omega)
  rw [AgreesAt] at h hrest ⊢
  simp only [bind_apply, h, hrest]

theorem advance_bind {next other : Token → Reader α} (hk : cursor.current.kind ≠ .eof)
    (hc : cursor.room < room + 1) (hn : ∀ token, AgreeBelow room (next token) (other token)) :
    AgreesAt cursor (advance >>= next) (advance >>= other) :=
  takes_bind rfl (takes_advance cursor) hk hc hn

end AgreesAt

end Reader

namespace Parser

open Reader

section Parts

variable {room : Nat} {above above' : Precedence → Reader Expr} {whole whole' : Reader Expr}
  {statement statement' : Reader Stmt} {bound bound' : Nat} {cursor : Cursor}
  (hw : AgreeBelow room whole whole') (hws : Stays whole')
  (ha : ∀ floor, AgreeBelow room (above floor) (above' floor))
  (has : ∀ floor, Stays (above' floor))
  (hs : AgreeBelow room statement statement') (hss : Stays statement')
  (ht : ∀ cursor : Cursor, cursor.room < room → cursor.current.kind ≠ .eof →
    Takes statement' cursor)
  (hb : room ≤ bound + 1) (hb' : room ≤ bound' + 1)
  (h : cursor.current.kind ≠ .eof) (hc : cursor.room < room + 1)

include hw hws in
theorem parenthesised_agrees : AgreeBelow room (parenthesised whole) (parenthesised whole') :=
  .bind (.refl _) (.expect _) fun _ => hw.before _ hws

include hb hb' in
theorem parameters_agrees : AgreeBelow room (parameters bound) (parameters bound') :=
  .items _ (.refl _) identifier_stays hb hb'

include hs ht hss hb hb' in
theorem blockRest_agrees :
    AgreeBelow room (blockRest bound statement) (blockRest bound' statement') :=
  (hs.itemsUntil _ ht hb hb').before _ (.itemsUntil _ hss _)

include hs ht hss hb hb' in
theorem block_agrees : AgreeBelow room (block bound statement) (block bound' statement') :=
  .bind (.refl _) (.expect _) fun _ => blockRest_agrees hs hss ht hb hb'

include ha has h hc in
theorem binary_agrees (op : BinaryOp) (left : Expr) :
    AgreesAt cursor (binary above op left) (binary above' op left) :=
  .advance_bind h hc fun _ => (ha _).bind (has _) fun _ => .refl _

include hw hws hb hb' h hc in
theorem call_agrees (callee : Expr) :
    AgreesAt cursor (call whole bound callee) (call whole' bound' callee) :=
  .advance_bind h hc fun _ => (hw.items _ hws hb hb').bind (hws.items _ _) fun _ => .refl _

include hw hws h hc in
theorem index_agrees (array : Expr) :
    AgreesAt cursor (index whole array) (index whole' array) :=
  .advance_bind h hc fun _ => (hw.before _ hws).bind (hws.before _) fun _ => .refl _

include hw hws h hc in
theorem nameOrAssignment_agrees :
    AgreesAt cursor (nameOrAssignment whole) (nameOrAssignment whole') := by
  refine .advance_bind h hc fun _ => .bind (.refl _) (.isAt _) fun _ => .ite ?_ (.refl _)
  exact .bind (.refl _) .advance fun _ => hw.bind hws fun _ => .refl _

include hw hws h hc in
theorem grouped_agrees : AgreesAt cursor (grouped whole) (grouped whole') :=
  .advance_bind h hc fun _ => hw.before _ hws

include hw hws hb hb' h hc in
theorem arrayLiteral_agrees :
    AgreesAt cursor (arrayLiteral whole bound) (arrayLiteral whole' bound') :=
  .advance_bind h hc fun _ => (hw.items _ hws hb hb').bind (hws.items _ _) fun _ => .refl _

include hs hss ht hb hb' h hc in
theorem functionLiteral_agrees :
    AgreesAt cursor (functionLiteral bound statement) (functionLiteral bound' statement') :=
  .advance_bind h hc fun _ => .bind (.refl _) (.expect _) fun _ =>
    .bind (parameters_agrees hb hb') (parameters_stays _) fun _ =>
      .bind (block_agrees hs hss ht hb hb') (block_stays _ hss) fun _ => .refl _

include ha has h hc in
theorem unary_agrees (op : UnaryOp) : AgreesAt cursor (unary above op) (unary above' op) :=
  .advance_bind h hc fun _ => (ha _).bind (has _) fun _ => .refl _

include ha has hs hss ht hb hb' hc in
theorem operandWith_agrees :
    AgreesAt cursor (operandWith above bound statement)
      (operandWith above' bound' statement') := by
  rw [operandWith, operandWith, agreesAt_current_bind]
  split
  all_goals try rfl
  case h_8 hk => exact (nameOrAssignment_agrees (ha _) (has _) (by simp [hk]) hc).map _
  case h_9 hk => exact (grouped_agrees (ha _) (has _) (by simp [hk]) hc).map _
  case h_10 hk => exact (arrayLiteral_agrees (ha _) (has _) hb hb' (by simp [hk]) hc).map _
  case h_11 hk => exact (functionLiteral_agrees hs hss ht hb hb' (by simp [hk]) hc).map _
  case h_12 heof _ _ _ _ _ _ _ _ _ _ =>
      split
      · exact (unary_agrees ha has heof hc _).map _
      · rfl

include ha has hb hb' hc in
theorem operatorsWith_agrees {operators operators' : Expr → Reader Expr}
    (ho : ∀ left, AgreeBelow room (operators left) (operators' left)) (floor : Precedence)
    (left : Expr) :
    AgreesAt cursor (operatorsWith above bound operators floor left)
      (operatorsWith above' bound' operators' floor left) := by
  rw [operatorsWith, operatorsWith, agreesAt_current_bind]
  dsimp only
  split
  · rfl
  · rename_i hrank
    have hk : cursor.current.kind ≠ .eof := by
      intro hk
      simp [hk, Precedence.ofToken, Precedence.rank] at hrank
    split
    · exact (binary_agrees ha has hk hc _ _).takes_bind (binary_takes has cursor _ _) hk hc ho
    · exact (call_agrees (ha _) (has _) hb hb' hk hc _).takes_bind
        (call_takes (has _) bound' cursor _) hk hc ho
    · exact (index_agrees (ha _) (has _) hk hc _).takes_bind (index_takes (has _) cursor _) hk hc ho
    · rfl

theorem expressionWith_agrees {operand operand' : Reader (Option Expr)}
    {operators operators' : Expr → Reader Expr} (hd : AgreeBelow room operand operand')
    (hds : Stays operand') (ho : ∀ left, AgreeBelow room (operators left) (operators' left)) :
    AgreeBelow room (expressionWith operand operators) (expressionWith operand' operators') := by
  refine hd.bind hds fun left => ?_
  split
  · exact .refl _
  · exact ho _

include hw hws h hc in
theorem letStatement_agrees :
    AgreesAt cursor (letStatement whole) (letStatement whole') :=
  .advance_bind h hc fun _ => .bind (.refl _) identifier_stays fun _ =>
    .bind (.refl _) (.expect _) fun _ => hw.bind hws fun _ => .refl _

include hw hws h hc in
theorem returnStatement_agrees :
    AgreesAt cursor (returnStatement whole) (returnStatement whole') :=
  .advance_bind h hc fun _ => (hw.before _ hws).bind (hws.before _) fun _ => .refl _

include hw hws hs hss ht hb hb' h hc in
theorem ifStatement_agrees :
    AgreesAt cursor (ifStatement whole bound statement) (ifStatement whole' bound' statement') := by
  have hblock := block_agrees hs hss ht hb hb'
  refine .advance_bind h hc fun _ => .bind (parenthesised_agrees hw hws)
    (parenthesised_stays hws) fun _ => hblock.bind (block_stays _ hss) fun _ =>
      .bind (.refl _) (.isAt _) fun _ => .ite ?_ (.refl _)
  exact .bind (.refl _) .advance fun _ => hblock.bind (block_stays _ hss) fun _ => .refl _

include hw hws hs hss ht hb hb' h hc in
theorem whileStatement_agrees :
    AgreesAt cursor (whileStatement whole bound statement)
      (whileStatement whole' bound' statement') :=
  .advance_bind h hc fun _ => .bind (parenthesised_agrees hw hws) (parenthesised_stays hws)
    fun _ => .bind (block_agrees hs hss ht hb hb') (block_stays _ hss) fun _ => .refl _

include hs hss ht hb hb' h hc in
theorem blockStatement_agrees :
    AgreesAt cursor (blockStatement bound statement) (blockStatement bound' statement') :=
  .advance_bind h hc fun _ => .bind (blockRest_agrees hs hss ht hb hb')
    (blockRest_stays _ hss) fun _ => .refl _

include hs hss ht hb hb' h hc in
theorem definition_agrees :
    AgreesAt cursor (definition bound statement) (definition bound' statement') :=
  .advance_bind h hc fun _ => .bind (.refl _) .advance fun _ => .bind (.refl _) (.expect _)
    fun _ => .bind (parameters_agrees hb hb') (parameters_stays _) fun _ =>
      .bind (block_agrees hs hss ht hb hb') (block_stays _ hss) fun _ => .refl _

-- An expression statement may take nothing in front of its expression, so it wants the
-- expression to agree at the cursor itself.
include hs hss ht hb hb' hc in
theorem statementWith_agrees (hw : AgreeBelow (room + 1) whole whole') (hws : Stays whole') :
    AgreesAt cursor (statementWith whole bound statement)
      (statementWith whole' bound' statement') := by
  have hl := hw.mono (Nat.le_succ room)
  rw [statementWith, statementWith, agreesAt_current_bind, agreesAt_following_bind]
  split
  case h_1 hk => exact letStatement_agrees hl hws (by simp [hk]) hc
  case h_2 hk => exact returnStatement_agrees hl hws (by simp [hk]) hc
  case h_3 hk => exact ifStatement_agrees hl hws hs hss ht hb hb' (by simp [hk]) hc
  case h_4 hk => exact whileStatement_agrees hl hws hs hss ht hb hb' (by simp [hk]) hc
  case h_5 hk => exact blockStatement_agrees hs hss ht hb hb' (by simp [hk]) hc
  case h_6 hk _ => exact definition_agrees hs hss ht hb hb' (by simp [hk]) hc
  case h_7 => exact (hw.before _ hws).bind (hws.before _) (fun _ => .refl _) cursor hc

end Parts

theorem statement_takes_of_le {fuel : Nat} (hf : 3 ≤ fuel) {cursor : Cursor}
    (h : cursor.current.kind ≠ .eof) : Takes (statement fuel) cursor := by
  obtain ⟨fuel, rfl⟩ : ∃ k, fuel = k + 3 := ⟨fuel - 3, by omega⟩
  exact statement_takes fuel h

-- The parts of the parser that call each other.
structure Parts where
  operand : Reader (Option Expr)
  operators : Precedence → Expr → Reader Expr
  expression : Precedence → Reader Expr
  statement : Reader Stmt

namespace Parts

-- The parts one level above those that they call. Lists take up to `bound` further items.
def above (bound : Nat) (below : Parts) : Parts where
  operand := operandWith below.expression bound below.statement
  operators floor left := operatorsWith below.expression bound (below.operators floor) floor left
  expression floor := expressionWith below.operand (below.operators floor)
  statement := statementWith (below.expression .lowest) bound below.statement

-- The parts a number of levels above any others, with a bound on the lists of each level.
def raise (bounds : Nat → Nat) (bottom : Parts) : Nat → Parts
  | 0 => bottom
  | depth + 1 => (raise bounds bottom depth).above (bounds depth)

-- Parts that read nothing.
def idle : Parts where
  operand := return none
  operators _ left := return left
  expression _ := return .missing
  statement := return .expression .missing

-- Fuel is the number of levels above parts that read nothing.
theorem raise_idle (fuel : Nat) :
    raise (fun depth => depth) idle fuel =
      ⟨Parser.operand fuel, Parser.operators fuel, Parser.expression fuel,
        Parser.statement fuel⟩ := by
  induction fuel with
  | zero => rfl
  | succ fuel ih =>
      rw [raise, ih]
      rfl

end Parts

open Parts (raise idle raise_idle)

-- With fewer tokens to come than a bound, the parser does not get to the bottom from some depth
-- on: parts that are raised that far do what it does, whatever they were.
structure Unreached (bounds : Nat → Nat) (bottom : Parts) (room : Nat) : Prop where
  operand : ∀ depth fuel, 3 * room ≤ depth + 2 → 3 * room ≤ fuel + 2 →
    AgreeBelow room (raise bounds bottom depth).operand (operand fuel)
  operators : ∀ depth fuel floor left, 3 * room ≤ depth + 2 → 3 * room ≤ fuel + 2 →
    AgreeBelow room ((raise bounds bottom depth).operators floor left) (operators fuel floor left)
  expression : ∀ depth fuel floor, 3 * room ≤ depth + 1 → 3 * room ≤ fuel + 1 →
    AgreeBelow room ((raise bounds bottom depth).expression floor) (expression fuel floor)
  statement : ∀ depth fuel, 3 * room ≤ depth → 3 * room ≤ fuel →
    AgreeBelow room (raise bounds bottom depth).statement (statement fuel)

section Unreached

variable {bounds : Nat → Nat} {bottom : Parts} {room : Nat}

theorem unreached_zero : Unreached bounds bottom 0 where
  operand := fun _ _ _ _ _ hc => absurd hc (Nat.not_lt_zero _)
  operators := fun _ _ _ _ _ _ _ hc => absurd hc (Nat.not_lt_zero _)
  expression := fun _ _ _ _ _ _ hc => absurd hc (Nat.not_lt_zero _)
  statement := fun _ _ _ _ _ hc => absurd hc (Nat.not_lt_zero _)

-- A call that takes a token is at most three levels down, so what held below a number of tokens
-- holds with one token more.
theorem Unreached.succ (hr : Unreached bounds bottom room)
    (hbound : ∀ depth, 3 * room ≤ depth → room ≤ bounds depth + 1) :
    Unreached bounds bottom (room + 1) := by
  have ht : ∀ fuel, 3 * room ≤ fuel → ∀ cursor : Cursor, cursor.room < room →
      cursor.current.kind ≠ .eof → Takes (Parser.statement fuel) cursor := by
    intro fuel hf cursor hc h
    exact statement_takes_of_le (by omega) h
  have hd : ∀ depth fuel, 3 * (room + 1) ≤ depth + 2 → 3 * (room + 1) ≤ fuel + 2 →
      AgreeBelow (room + 1) (raise bounds bottom depth).operand (Parser.operand fuel) := by
    intro depth fuel hdepth hfuel cursor hc
    obtain ⟨depth, rfl⟩ : ∃ k, depth = k + 1 := ⟨depth - 1, by omega⟩
    obtain ⟨fuel, rfl⟩ : ∃ k, fuel = k + 1 := ⟨fuel - 1, by omega⟩
    exact operandWith_agrees (fun _ => hr.expression _ _ _ (by omega) (by omega))
      (expression_stays _) (hr.statement _ _ (by omega) (by omega)) (statement_stays _)
      (ht _ (by omega)) (hbound _ (by omega)) (by omega) hc
  have ho : ∀ depth fuel floor left, 3 * (room + 1) ≤ depth + 2 → 3 * (room + 1) ≤ fuel + 2 →
      AgreeBelow (room + 1) ((raise bounds bottom depth).operators floor left)
        (Parser.operators fuel floor left) := by
    intro depth fuel floor left hdepth hfuel cursor hc
    obtain ⟨depth, rfl⟩ : ∃ k, depth = k + 1 := ⟨depth - 1, by omega⟩
    obtain ⟨fuel, rfl⟩ : ∃ k, fuel = k + 1 := ⟨fuel - 1, by omega⟩
    exact operatorsWith_agrees (fun _ => hr.expression _ _ _ (by omega) (by omega))
      (expression_stays _) (hbound _ (by omega)) (by omega) hc
      (fun _ => hr.operators _ _ _ _ (by omega) (by omega)) floor left
  have he : ∀ depth fuel floor, 3 * (room + 1) ≤ depth + 1 → 3 * (room + 1) ≤ fuel + 1 →
      AgreeBelow (room + 1) ((raise bounds bottom depth).expression floor)
        (Parser.expression fuel floor) := by
    intro depth fuel floor hdepth hfuel
    obtain ⟨depth, rfl⟩ : ∃ k, depth = k + 1 := ⟨depth - 1, by omega⟩
    obtain ⟨fuel, rfl⟩ : ∃ k, fuel = k + 1 := ⟨fuel - 1, by omega⟩
    exact expressionWith_agrees (hd _ _ (by omega) (by omega)) (operand_stays _)
      (fun _ => ho _ _ _ _ (by omega) (by omega))
  refine ⟨hd, ho, he, ?_⟩
  intro depth fuel hdepth hfuel cursor hc
  obtain ⟨depth, rfl⟩ : ∃ k, depth = k + 1 := ⟨depth - 1, by omega⟩
  obtain ⟨fuel, rfl⟩ : ∃ k, fuel = k + 1 := ⟨fuel - 1, by omega⟩
  exact statementWith_agrees (hr.statement _ _ (by omega) (by omega)) (statement_stays _)
    (ht _ (by omega)) (hbound _ (by omega)) (by omega) hc (he _ _ _ (by omega) (by omega))
    (expression_stays _ _)

theorem unreached
    (hbound : ∀ less < room, ∀ depth, 3 * less ≤ depth → less ≤ bounds depth + 1) :
    Unreached bounds bottom room := by
  induction room with
  | zero => exact unreached_zero
  | succ room ih =>
      apply Unreached.succ
      · exact ih fun less hless => hbound less (by omega)
      · exact hbound room (by omega)

end Unreached

-- With fewer tokens to come than a bound, fuel makes no difference from some amount on.
structure Settled (room : Nat) : Prop where
  operand : ∀ fuel fuel', 3 * room ≤ fuel + 2 → 3 * room ≤ fuel' + 2 →
    AgreeBelow room (operand fuel) (operand fuel')
  operators : ∀ fuel fuel' floor left, 3 * room ≤ fuel + 2 → 3 * room ≤ fuel' + 2 →
    AgreeBelow room (operators fuel floor left) (operators fuel' floor left)
  expression : ∀ fuel fuel' floor, 3 * room ≤ fuel + 1 → 3 * room ≤ fuel' + 1 →
    AgreeBelow room (expression fuel floor) (expression fuel' floor)
  statement : ∀ fuel fuel', 3 * room ≤ fuel → 3 * room ≤ fuel' →
    AgreeBelow room (statement fuel) (statement fuel')

theorem settled (room : Nat) : Settled room := by
  have hidle : Unreached (fun depth => depth) idle room := unreached fun _ _ _ _ => by omega
  obtain ⟨hd, ho, he, hs⟩ := hidle
  simp only [raise_idle] at hd ho he hs
  exact ⟨hd, ho, he, hs⟩

end Parser

namespace Reader

-- The parts of the parser with the fuel they need where they stand.

def operand : Reader (Option Expr) := fun cursor => Parser.operand (3 * cursor.room + 1) cursor

def operators (floor : Precedence) (left : Expr) : Reader Expr :=
  fun cursor => Parser.operators (3 * cursor.room + 1) floor left cursor

def expression (floor : Precedence) : Reader Expr :=
  fun cursor => Parser.expression (3 * cursor.room + 2) floor cursor

def statement : Reader Stmt := fun cursor => Parser.statement (3 * cursor.room + 3) cursor

theorem operand_stays : Stays operand := fun cursor => Parser.operand_stays _ cursor

theorem expression_stays (floor : Precedence) : Stays (expression floor) :=
  fun cursor => Parser.expression_stays _ _ cursor

theorem statement_stays : Stays statement := fun cursor => Parser.statement_stays _ cursor

theorem statement_takes {cursor : Cursor} (h : cursor.current.kind ≠ .eof) :
    Takes statement cursor := by
  have ht := Parser.statement_takes (3 * cursor.room) h
  rw [Takes] at ht ⊢
  exact ht

section Agreement

variable {room fuel : Nat}

theorem operand_agrees (hf : 3 * room ≤ fuel + 2) :
    AgreeBelow room (Parser.operand fuel) operand :=
  fun cursor _ => (Parser.settled (cursor.room + 1)).operand _ _ (by omega) (by omega) _ (by omega)

theorem operators_agrees (floor : Precedence) (left : Expr) (hf : 3 * room ≤ fuel + 2) :
    AgreeBelow room (Parser.operators fuel floor left) (operators floor left) :=
  fun cursor _ =>
    (Parser.settled (cursor.room + 1)).operators _ _ _ _ (by omega) (by omega) _ (by omega)

theorem expression_agrees (floor : Precedence) (hf : 3 * room ≤ fuel + 1) :
    AgreeBelow room (Parser.expression fuel floor) (expression floor) :=
  fun cursor _ =>
    (Parser.settled (cursor.room + 1)).expression _ _ _ (by omega) (by omega) _ (by omega)

theorem statement_agrees (hf : 3 * room ≤ fuel) :
    AgreeBelow room (Parser.statement fuel) statement :=
  fun cursor _ =>
    (Parser.settled (cursor.room + 1)).statement _ _ (by omega) (by omega) _ (by omega)

end Agreement

-- The recursion of the parser, without fuel. Lists may be as long as there are tokens.

theorem expression_eq (floor : Precedence) :
    expression floor = Parser.expressionWith operand (operators floor) := by
  funext cursor
  exact Parser.expressionWith_agrees (operand_agrees (by omega)) operand_stays
    (fun _ => operators_agrees _ _ (by omega)) cursor (Nat.lt_succ_self _)

theorem operators_apply {cursor : Cursor} {bound : Nat} (hb : cursor.room ≤ bound)
    (floor : Precedence) (left : Expr) :
    operators floor left cursor =
      Parser.operatorsWith expression bound (operators floor) floor left cursor :=
  Parser.operatorsWith_agrees (fun _ => expression_agrees _ (by omega)) expression_stays
    (by omega) (by omega) (Nat.lt_succ_self _) (fun _ => operators_agrees _ _ (by omega)) _ _

theorem operand_apply {cursor : Cursor} {bound : Nat} (hb : cursor.room ≤ bound) :
    operand cursor = Parser.operandWith expression bound statement cursor :=
  Parser.operandWith_agrees (fun _ => expression_agrees _ (by omega)) expression_stays
    (statement_agrees (by omega)) statement_stays (fun _ _ h => statement_takes h)
    (by omega) (by omega) (Nat.lt_succ_self _)

theorem statement_apply {cursor : Cursor} {bound : Nat} (hb : cursor.room ≤ bound) :
    statement cursor =
      Parser.statementWith (expression .lowest) bound statement cursor :=
  Parser.statementWith_agrees (statement_agrees (by omega)) statement_stays
    (fun _ _ h => statement_takes h) (by omega) (by omega) (Nat.lt_succ_self _)
    (expression_agrees _ (by omega)) (expression_stays _)

theorem operators_of_rank_le {cursor : Cursor} {floor : Precedence} {left : Expr}
    (h : (Precedence.ofToken cursor.current.kind).rank ≤ floor.rank) :
    operators floor left cursor = ⟨left, cursor, []⟩ := by
  rw [operators_apply (Nat.le_refl _), Parser.operatorsWith]
  simp [h]

-- A reader that reads nothing where no fewer tokens than a number are to come, and gives a value
-- instead. What holds of a reader below that number holds of this one everywhere.
def cutOff (room : Nat) (value : α) (reader : Reader α) : Reader α :=
  fun cursor => if cursor.room < room then reader cursor else ⟨value, cursor, []⟩

theorem cutOff_agrees (room : Nat) (value : α) (reader : Reader α) :
    AgreeBelow room (cutOff room value reader) reader :=
  fun _ hc => if_pos hc

theorem cutOff_of_ne {room : Nat} {value : α} {reader : Reader α} {cursor : Cursor}
    (h : (cutOff room value reader cursor).value ≠ value) :
    cutOff room value reader cursor = reader cursor := by
  rw [cutOff] at h ⊢
  split at h
  · rw [if_pos ‹_›]
  · contradiction

end Reader

theorem Cursor.parse_eq {cursor : Cursor} {bound : Nat} (hb : cursor.room ≤ bound) :
    cursor.parse = Reader.itemsUntil .eof Reader.statement bound cursor := by
  have hf : 3 * (cursor.room + 1) ≤ Parser.fuelFor cursor := Nat.le_refl _
  exact Reader.AgreeBelow.itemsUntil .eof (Reader.statement_agrees hf)
    (fun _ _ h => Reader.statement_takes h) (by omega) (by omega) cursor (Nat.lt_succ_self _)

end Capuchin

import Capuchin.Syntax.Parser

namespace Capuchin

namespace Cursor

-- One cursor stands on the same text as another, at the same token or further on.
def Within (cursor start : Cursor) : Prop :=
  cursor.stop = start.stop ∧ cursor.ahead <:+ start.ahead

namespace Within

@[simp] theorem refl (cursor : Cursor) : cursor.Within cursor := ⟨rfl, List.suffix_refl _⟩

theorem trans {a b c : Cursor} (hab : a.Within b) (hbc : b.Within c) : a.Within c :=
  ⟨hab.1.trans hbc.1, hab.2.trans hbc.2⟩

theorem length_le {a b : Cursor} (h : a.Within b) : a.ahead.length ≤ b.ahead.length :=
  h.2.length_le

end Within

theorem advance_within (cursor : Cursor) : cursor.advance.Within cursor :=
  ⟨rfl, List.tail_suffix _⟩

-- Behind the last token there is only the end.
theorem ahead_ne_nil {cursor : Cursor} (h : cursor.current.kind ≠ .eof) : cursor.ahead ≠ [] := by
  intro hn
  simp [current, hn, finish] at h

theorem ahead_eq_cons {cursor : Cursor} (h : cursor.current.kind ≠ .eof) :
    cursor.ahead = cursor.current :: cursor.advance.ahead := by
  obtain ⟨token, rest, heq⟩ := List.exists_cons_of_ne_nil (ahead_ne_nil h)
  simp [current, advance, heq]

theorem length_advance_lt {cursor : Cursor} (h : cursor.current.kind ≠ .eof) :
    cursor.advance.ahead.length < cursor.ahead.length := by
  have hpos := List.length_pos_iff.mpr (ahead_ne_nil h)
  simp only [advance, List.length_tail]
  omega

end Cursor

namespace Reader

@[simp] theorem current_apply (cursor : Cursor) :
    current cursor = ⟨cursor.current, cursor, []⟩ := rfl

@[simp] theorem following_apply (cursor : Cursor) :
    following cursor = ⟨cursor.following, cursor, []⟩ := rfl

@[simp] theorem advance_apply (cursor : Cursor) :
    advance cursor = ⟨cursor.current, cursor.advance, []⟩ := rfl

@[simp] theorem report_apply (diagnostic : Diagnostic) (cursor : Cursor) :
    report diagnostic cursor = ⟨(), cursor, [diagnostic]⟩ := rfl

@[simp] theorem isAt_apply (kind : TokenKind) (cursor : Cursor) :
    isAt kind cursor = ⟨cursor.current.kind = kind, cursor, []⟩ := rfl

@[simp] theorem map_apply (f : α → β) (reader : Reader α) (cursor : Cursor) :
    (f <$> reader) cursor =
      ⟨f (reader cursor).value, (reader cursor).rest, (reader cursor).diagnostics⟩ := by
  rw [map_eq_pure_bind]
  simp

-- Reading never goes back.
def Stays (reader : Reader α) : Prop := ∀ cursor, (reader cursor).rest.Within cursor

namespace Stays

theorem pure (value : α) : Stays (pure value) := fun cursor => .refl cursor

theorem bind {reader : Reader α} {next : α → Reader β} (hr : Stays reader)
    (hn : ∀ value, Stays (next value)) : Stays (reader >>= next) :=
  fun cursor => (hn _ _).trans (hr cursor)

theorem map (f : α → β) {reader : Reader α} (hr : Stays reader) : Stays (f <$> reader) := by
  rw [map_eq_pure_bind]
  exact hr.bind fun _ => .pure _

theorem current : Stays current := fun cursor => .refl cursor

theorem report (diagnostic : Diagnostic) : Stays (report diagnostic) := fun cursor => .refl cursor

theorem advance : Stays advance := fun cursor => cursor.advance_within

theorem ite {p : Prop} [Decidable p] {yes no : Reader α} (hy : Stays yes) (hn : Stays no) :
    Stays (if p then yes else no) := by
  split
  · exact hy
  · exact hn

theorem isAt (kind : TokenKind) : Stays (isAt kind) := current.bind fun _ => .pure _

theorem expect (kind : TokenKind) : Stays (expect kind) :=
  current.bind fun _ => .ite (advance.bind fun _ => .pure _) (.report _)

theorem before (close : TokenKind) {reader : Reader α} (hr : Stays reader) :
    Stays (before close reader) :=
  hr.bind fun _ => (expect close).bind fun _ => .pure _

theorem moreItems {item : Reader α} (hi : Stays item) (bound : Nat) :
    Stays (moreItems item bound) := by
  induction bound with
  | zero => exact .pure []
  | succ bound ih =>
      refine (isAt .comma).bind fun _ => .ite ?_ (.pure [])
      exact advance.bind fun _ => hi.bind fun _ => ih.bind fun _ => .pure _

theorem items (bound : Nat) (close : TokenKind) {item : Reader α} (hi : Stays item) :
    Stays (items bound close item) := by
  refine (isAt close).bind fun _ => .ite (advance.bind fun _ => .pure []) ?_
  exact before close (hi.bind fun _ => (moreItems hi bound).bind fun _ => .pure _)

theorem itemsUntil (stop : TokenKind) {item : Reader α} (hi : Stays item) (bound : Nat) :
    Stays (itemsUntil stop item bound) := by
  induction bound with
  | zero => exact .pure []
  | succ bound ih =>
      refine current.bind fun _ => .ite (.pure []) ?_
      exact hi.bind fun _ => ih.bind fun _ => .pure _

end Stays

-- Reading takes a token at least.
def Takes (reader : Reader α) (cursor : Cursor) : Prop :=
  (reader cursor).rest.Within cursor.advance

theorem Takes.within {reader : Reader α} {cursor : Cursor} (h : Takes reader cursor) :
    (reader cursor).rest.Within cursor :=
  Cursor.Within.trans h cursor.advance_within

theorem Takes.bind {reader : Reader α} {next : α → Reader β} {cursor : Cursor}
    (hr : Takes reader cursor) (hn : ∀ value, Stays (next value)) :
    Takes (reader >>= next) cursor :=
  (hn _ _).trans hr

theorem Takes.map (f : α → β) {reader : Reader α} {cursor : Cursor} (h : Takes reader cursor) :
    Takes (f <$> reader) cursor := by
  rw [map_eq_pure_bind]
  exact h.bind fun _ => .pure _

theorem takes_current_bind {next : Token → Reader α} {cursor : Cursor} :
    Takes (current >>= next) cursor ↔ Takes (next cursor.current) cursor := Iff.rfl

theorem takes_advance (cursor : Cursor) : Takes advance cursor := .refl cursor.advance

theorem takes_advance_bind {next : Token → Reader α} (cursor : Cursor)
    (hn : ∀ token, Stays (next token)) : Takes (advance >>= next) cursor :=
  (takes_advance cursor).bind hn

-- Reading takes a token at least, or it is what another reader does.
def TakesOr (other reader : Reader α) (cursor : Cursor) : Prop :=
  Takes reader cursor ∨ reader cursor = other cursor

theorem takesOr_current_bind {other : Reader α} {next : Token → Reader α} {cursor : Cursor} :
    TakesOr other (current >>= next) cursor ↔ TakesOr other (next cursor.current) cursor := Iff.rfl

theorem takesOr_following_bind {other : Reader α} {next : Token → Reader α} {cursor : Cursor} :
    TakesOr other (following >>= next) cursor ↔ TakesOr other (next cursor.following) cursor :=
  Iff.rfl

end Reader

namespace Parser

open Reader

theorem identifier_stays : Stays identifier := by
  refine .bind .current fun token => ?_
  split
  · exact .bind .advance fun _ => .pure _
  · exact .bind (.report _) fun _ => .pure _
  · exact .bind (.report _) fun _ => .pure _

theorem literal_stays (token : Token) (value : Option Expr) : Stays (literal token value) := by
  cases value with
  | some expr => exact .pure expr
  | none => exact .bind (.report _) fun _ => .pure _

theorem parameters_stays (bound : Nat) : Stays (parameters bound) := .items _ _ identifier_stays

theorem parenthesised_stays {condition : Reader Expr} (hc : Stays condition) :
    Stays (parenthesised condition) :=
  .bind (.expect _) fun _ => .before _ hc

theorem blockRest_stays (bound : Nat) {statement : Reader Stmt} (hs : Stays statement) :
    Stays (blockRest bound statement) :=
  .before _ (.itemsUntil _ hs bound)

theorem block_stays (bound : Nat) {statement : Reader Stmt} (hs : Stays statement) :
    Stays (block bound statement) :=
  .bind (.expect _) fun _ => blockRest_stays bound hs

section Parts

variable {whole : Reader Expr} {above : Precedence → Reader Expr} {statement : Reader Stmt}
  (hw : Stays whole) (ha : ∀ floor, Stays (above floor)) (hs : Stays statement) (bound : Nat)
  (cursor : Cursor)

include ha in
theorem binary_takes (op : BinaryOp) (left : Expr) : Takes (binary above op left) cursor :=
  takes_advance_bind cursor fun _ => .bind (ha _) fun _ => .pure _

include hw in
theorem call_takes (callee : Expr) : Takes (call whole bound callee) cursor :=
  takes_advance_bind cursor fun _ => .bind (.items _ _ hw) fun _ => .pure _

include hw in
theorem index_takes (array : Expr) : Takes (index whole array) cursor :=
  takes_advance_bind cursor fun _ => .bind (.before _ hw) fun _ => .pure _

include hw in
theorem nameOrAssignment_takes : Takes (nameOrAssignment whole) cursor := by
  refine takes_advance_bind cursor fun _ => .bind (.isAt _) fun _ => .ite ?_ (.pure _)
  exact .bind .advance fun _ => .bind hw fun _ => .pure _

include hw in
theorem grouped_takes : Takes (grouped whole) cursor :=
  takes_advance_bind cursor fun _ => .before _ hw

include hw in
theorem arrayLiteral_takes : Takes (arrayLiteral whole bound) cursor :=
  takes_advance_bind cursor fun _ => .bind (.items _ _ hw) fun _ => .pure _

include hs in
theorem functionLiteral_takes : Takes (functionLiteral bound statement) cursor :=
  takes_advance_bind cursor fun _ => .bind (.expect _) fun _ =>
    .bind (parameters_stays _) fun _ => .bind (block_stays _ hs) fun _ => .pure _

include ha in
theorem unary_takes (op : UnaryOp) : Takes (unary above op) cursor :=
  takes_advance_bind cursor fun _ => .bind (ha _) fun _ => .pure _

include ha hs in
theorem operandWith_takes {cursor : Cursor} (h : cursor.current.kind ≠ .eof)
    (hsemi : cursor.current.kind ≠ .semiColon) :
    Takes (operandWith above bound statement) cursor := by
  rw [operandWith, takes_current_bind]
  split
  · contradiction
  · contradiction
  · exact takes_advance_bind cursor fun _ => (literal_stays _ _).map _
  · exact takes_advance_bind cursor fun _ => (literal_stays _ _).map _
  · exact takes_advance_bind cursor fun _ => .pure _
  · exact takes_advance_bind cursor fun _ => .pure _
  · exact takes_advance_bind cursor fun _ => .pure _
  · exact (nameOrAssignment_takes (ha _) cursor).map _
  · exact (grouped_takes (ha _) cursor).map _
  · exact (arrayLiteral_takes (ha _) bound cursor).map _
  · exact (functionLiteral_takes hs bound cursor).map _
  · split
    · exact (unary_takes ha cursor _).map _
    · exact takes_advance cursor

include ha hs in
theorem operandWith_stays : Stays (operandWith above bound statement) := by
  intro cursor
  by_cases h : cursor.current.kind = .eof
  · simp [operandWith, h]
  · by_cases hsemi : cursor.current.kind = .semiColon
    · simp [operandWith, hsemi]
    · exact (operandWith_takes ha hs bound h hsemi).within

include ha in
theorem operatorsWith_stays {operators : Expr → Reader Expr} (ho : ∀ left, Stays (operators left))
    (floor : Precedence) (left : Expr) :
    Stays (operatorsWith above bound operators floor left) := by
  refine .bind .current fun token => .ite (.pure left) ?_
  split
  · exact .bind (fun cursor => (binary_takes ha cursor _ _).within) ho
  · exact .bind (fun cursor => (call_takes (ha _) bound cursor _).within) ho
  · exact .bind (fun cursor => (index_takes (ha _) cursor _).within) ho
  · exact .pure left

theorem expressionWith_stays {operand : Reader (Option Expr)} {operators : Expr → Reader Expr}
    (hd : Stays operand) (ho : ∀ left, Stays (operators left)) :
    Stays (expressionWith operand operators) := by
  refine .bind hd fun left => ?_
  split
  · exact .pure _
  · exact ho _

include hw in
theorem letStatement_takes : Takes (letStatement whole) cursor := by
  refine takes_advance_bind cursor fun _ => .bind identifier_stays fun _ =>
    .bind (.expect _) fun _ => .bind hw fun value => ?_
  split
  · exact .bind .current fun _ => .bind (.report _) fun _ => .pure _
  · exact .bind (.expect _) fun _ => .pure _

include hw in
theorem returnStatement_takes : Takes (returnStatement whole) cursor :=
  takes_advance_bind cursor fun _ => .bind (.before _ hw) fun _ => .pure _

include hw hs in
theorem ifStatement_takes : Takes (ifStatement whole bound statement) cursor := by
  refine takes_advance_bind cursor fun _ => .bind (parenthesised_stays hw) fun _ =>
    .bind (block_stays _ hs) fun _ => .bind (.isAt _) fun _ => .ite ?_ (.pure _)
  exact .bind .advance fun _ => .bind (block_stays _ hs) fun _ => .pure _

include hw hs in
theorem whileStatement_takes : Takes (whileStatement whole bound statement) cursor :=
  takes_advance_bind cursor fun _ => .bind (parenthesised_stays hw) fun _ =>
    .bind (block_stays _ hs) fun _ => .pure _

include hs in
theorem blockStatement_takes : Takes (blockStatement bound statement) cursor :=
  takes_advance_bind cursor fun _ => .bind (blockRest_stays _ hs) fun _ => .pure _

include hs in
theorem definition_takes : Takes (definition bound statement) cursor :=
  takes_advance_bind cursor fun _ => .bind .advance fun _ => .bind (.expect _) fun _ =>
    .bind (parameters_stays _) fun _ => .bind (block_stays _ hs) fun _ => .pure _

include hw in
theorem expressionStatement_stays : Stays (expressionStatement whole) :=
  .bind (.before _ hw) fun _ => .pure _

-- Only an expression statement can leave all tokens where they are.
include hw hs in
theorem statementWith_takesOr :
    TakesOr (expressionStatement whole) (statementWith whole bound statement) cursor := by
  rw [statementWith, takesOr_current_bind, takesOr_following_bind]
  split
  · exact .inl (letStatement_takes hw cursor)
  · exact .inl (returnStatement_takes hw cursor)
  · exact .inl (ifStatement_takes hw hs bound cursor)
  · exact .inl (whileStatement_takes hw hs bound cursor)
  · exact .inl (blockStatement_takes hs bound cursor)
  · exact .inl (definition_takes hs bound cursor)
  · exact .inr rfl

include hw hs in
theorem statementWith_stays : Stays (statementWith whole bound statement) := by
  intro cursor
  obtain ht | heq := statementWith_takesOr hw hs bound cursor
  · exact ht.within
  · rw [heq]
    exact expressionStatement_stays hw cursor

end Parts

-- Whatever the fuel, no part of the parser goes back.
theorem stays (fuel : Nat) :
    (∀ floor, Stays (expression fuel floor)) ∧
      (∀ floor left, Stays (operators fuel floor left)) ∧ Stays (operand fuel) ∧
      Stays (statement fuel) := by
  induction fuel with
  | zero => exact ⟨fun _ => .pure _, fun _ _ => .pure _, .pure _, .pure _⟩
  | succ fuel ih =>
      obtain ⟨he, ho, hd, hs⟩ := ih
      exact ⟨fun floor => expressionWith_stays hd (ho floor),
        fun floor => operatorsWith_stays he fuel (ho floor) floor,
        operandWith_stays he hs fuel, statementWith_stays (he _) hs fuel⟩

theorem expression_stays (fuel : Nat) (floor : Precedence) : Stays (expression fuel floor) :=
  (stays fuel).1 floor

theorem operators_stays (fuel : Nat) (floor : Precedence) (left : Expr) :
    Stays (operators fuel floor left) :=
  (stays fuel).2.1 floor left

theorem operand_stays (fuel : Nat) : Stays (operand fuel) := (stays fuel).2.2.1

theorem statement_stays (fuel : Nat) : Stays (statement fuel) := (stays fuel).2.2.2

theorem operand_takes (fuel : Nat) {cursor : Cursor} (h : cursor.current.kind ≠ .eof)
    (hsemi : cursor.current.kind ≠ .semiColon) : Takes (operand (fuel + 1)) cursor :=
  operandWith_takes (expression_stays fuel) (statement_stays fuel) fuel h hsemi

theorem expression_takes (fuel : Nat) (floor : Precedence) {cursor : Cursor}
    (h : cursor.current.kind ≠ .eof) (hsemi : cursor.current.kind ≠ .semiColon) :
    Takes (expression (fuel + 2) floor) cursor := by
  rw [expression]
  refine (operand_takes fuel h hsemi).bind fun left => ?_
  split
  · exact .pure _
  · exact operators_stays _ _ _

-- With nothing but a semicolon to read, the semicolon is what a statement takes.
theorem statement_takes (fuel : Nat) {cursor : Cursor} (h : cursor.current.kind ≠ .eof) :
    Takes (statement (fuel + 3)) cursor := by
  obtain ht | heq := statementWith_takesOr (expression_stays (fuel + 2) .lowest)
    (statement_stays (fuel + 2)) (fuel + 2) cursor
  · exact ht
  · rw [Takes, statement, heq]
    by_cases hsemi : cursor.current.kind = .semiColon
    · have he : expression (fuel + 2) .lowest cursor = ⟨.missing, cursor, []⟩ := by
        simp [expression, expressionWith, operand, operandWith, hsemi]
      simp [expressionStatement, before, expect, he, hsemi]
    · exact ((expression_takes fuel .lowest h hsemi).bind fun _ =>
        .bind (.expect _) fun _ => .pure _).bind fun _ => .pure _

end Parser

end Capuchin

import Capuchin.Proofs.Syntax.Acceptance
import Capuchin.Proofs.Syntax.Conservation
import Capuchin.Proofs.Syntax.Finishing
import Capuchin.Proofs.Token.Scanning

-- Where the objections of the parser are, and what they say of the tokens there.
namespace Capuchin

-- The kinds of tokens that are passed over where an operand should begin.
def TokenKind.isStray (kind : TokenKind) : Bool :=
  !Acceptance.beginsExpression kind && kind != .semiColon && kind != .eof

namespace Parser

open Reader

-- A binding up to its `=`.
def bindingHead : Reader (Option String) := do
  let _ ← advance
  let name ← identifier
  expect .assign
  return name

-- A binding behind its value.
def bindingEnd (name : Option String) : Expr → Reader Stmt
  | .missing => do
    report (.expectedExpression (← current))
    return .bind name .missing
  | value => do
    expect .semiColon
    return .bind name value

theorem bindingEnd_of_ne {name : Option String} {value : Expr} (h : value ≠ .missing) :
    bindingEnd name value = do
      expect .semiColon
      return .bind name value := by
  cases value <;> first | rfl | contradiction

theorem letStatement_eq (whole : Reader Expr) :
    letStatement whole = bindingHead >>= fun name => whole >>= bindingEnd name := by
  simp only [letStatement, bindingHead, bind_assoc, pure_bind]
  refine congrArg _ (funext fun _ => congrArg _ (funext fun name => congrArg _ (funext fun _ =>
    congrArg _ (funext fun value => ?_))))
  cases value <;> rfl

end Parser

namespace Cursor

-- Where the value of the binding at the cursor should start.
def valueStart (cursor : Cursor) : Cursor := (Parser.bindingHead cursor).rest

-- At the cursor is a binding, no value is read for it, and this is the token met instead.
structure LacksValue (cursor : Cursor) (found : Token) : Prop where
  word : cursor.current.kind = .letWord
  missing : (Reader.expression .lowest cursor.valueStart).value = .missing
  found : (Reader.expression .lowest cursor.valueStart).rest.current = found

variable {cursor : Cursor}

theorem Within.toList_suffix {rest : Cursor} (h : rest.Within cursor) :
    rest.toList <:+ cursor.toList := by
  obtain ⟨hstop, taken, htaken⟩ := h
  refine ⟨taken, ?_⟩
  rw [toList, toList, ← List.append_assoc, htaken, finish, finish, hstop]

theorem toList_eq_cons (h : cursor.current.kind ≠ .eof) :
    cursor.toList = cursor.current :: cursor.advance.toList := by
  rw [toList, ahead_eq_cons h]
  rfl

theorem current_mem_toList (cursor : Cursor) : cursor.current ∈ cursor.toList := by
  obtain ⟨ahead, stop⟩ := cursor
  cases ahead <;> simp [current, toList]

theorem current_start_le
    (h : cursor.toList.Pairwise fun first second => first.start ≤ second.start) :
    ∀ token ∈ cursor.toList, cursor.current.start ≤ token.start := by
  obtain ⟨ahead, stop⟩ := cursor
  cases ahead with
  | nil => simp [current, toList]
  | cons token rest =>
      obtain ⟨hfirst, -⟩ := List.pairwise_cons.mp h
      exact List.forall_mem_cons.mpr ⟨Nat.le_refl _, hfirst⟩

end Cursor

namespace Diagnostic

-- What an objection that the parser makes behind a cursor says of its token.
def Apt (origin : Cursor) : Diagnostic → Prop
  | expectedToken expected found => found.kind ≠ expected
  | expectedExpression found => ∃ binding : Cursor, binding.Within origin ∧ binding.LacksValue found
  | unexpectedToken found => found.kind.isStray
  | unexpectedEnd found => found.kind = .eof
  | invalidLiteral found => found.isUnread

-- The token of an objection to a stray token.
def stray? : Diagnostic → Option Token
  | unexpectedToken found => some found
  | _ => none

theorem stray?_eq_some {diagnostic : Diagnostic} {token : Token}
    (h : diagnostic.stray? = some token) : diagnostic = .unexpectedToken token := by
  cases diagnostic <;> simp_all [stray?]

end Diagnostic

-- What the parser may do on its way from one cursor to another. It takes tokens, and it objects
-- to the token it stands at. Then it may take that token too, and a stray token it always takes.
inductive Walk (origin : Cursor) : Cursor → List Diagnostic → Cursor → Prop
  | stay {cursor} : Walk origin cursor [] cursor
  | take {cursor diagnostics rest} (hrest : Walk origin cursor.advance diagnostics rest) :
      Walk origin cursor diagnostics rest
  | leave {cursor diagnostic diagnostics rest} (hfound : diagnostic.found = cursor.current)
      (hapt : diagnostic.Apt origin) (hstray : diagnostic.stray? = none)
      (hrest : Walk origin cursor diagnostics rest) :
      Walk origin cursor (diagnostic :: diagnostics) rest
  | pass {cursor diagnostic diagnostics rest} (hfound : diagnostic.found = cursor.current)
      (hapt : diagnostic.Apt origin) (hrest : Walk origin cursor.advance diagnostics rest) :
      Walk origin cursor (diagnostic :: diagnostics) rest

namespace Walk

variable {origin cursor middle rest : Cursor} {diagnostics later : List Diagnostic}

theorem within (h : Walk origin cursor diagnostics rest) : rest.Within cursor := by
  induction h with
  | stay => exact .refl _
  | take _ ih | pass _ _ _ ih => exact ih.trans (Cursor.advance_within _)
  | leave _ _ _ _ ih => exact ih

theorem trans (h : Walk origin cursor diagnostics middle) (hlater : Walk origin middle later rest) :
    Walk origin cursor (diagnostics ++ later) rest := by
  induction h with
  | stay => exact hlater
  | take _ ih => exact .take (ih hlater)
  | leave hfound hapt hstray _ ih => exact .leave hfound hapt hstray (ih hlater)
  | pass hfound hapt _ ih => exact .pass hfound hapt (ih hlater)

theorem apt (h : Walk origin cursor diagnostics rest) : ∀ diagnostic ∈ diagnostics,
    diagnostic.Apt origin := by
  induction h with
  | stay => simp
  | take _ ih => exact ih
  | leave _ hapt _ _ ih | pass _ hapt _ ih => exact List.forall_mem_cons.mpr ⟨hapt, ih⟩

theorem found_mem (h : Walk origin cursor diagnostics rest) :
    ∀ diagnostic ∈ diagnostics, diagnostic.found ∈ cursor.toList := by
  induction h with
  | stay => simp
  | @take cursor _ _ _ ih =>
      exact fun diagnostic hmem => cursor.advance_within.toList_suffix.subset (ih diagnostic hmem)
  | @leave cursor _ _ _ hfound _ _ _ ih =>
      rw [List.forall_mem_cons, hfound]
      exact ⟨cursor.current_mem_toList, ih⟩
  | @pass cursor _ _ _ hfound _ _ ih =>
      rw [List.forall_mem_cons, hfound]
      exact ⟨cursor.current_mem_toList,
        fun diagnostic hmem => cursor.advance_within.toList_suffix.subset (ih diagnostic hmem)⟩

-- Nothing before the cursor is objected to any more.
theorem ordered (h : Walk origin cursor diagnostics rest)
    (hsorted : cursor.toList.Pairwise fun first second => first.start ≤ second.start) :
    diagnostics.Pairwise fun first second => first.found.start ≤ second.found.start := by
  induction h with
  | stay => exact .nil
  | @take cursor _ _ _ ih => exact ih (hsorted.sublist cursor.advance_within.toList_suffix.sublist)
  | leave hfound _ _ hrest ih =>
      refine List.pairwise_cons.mpr ⟨fun diagnostic hmem => ?_, ih hsorted⟩
      rw [hfound]
      exact Cursor.current_start_le hsorted _ (hrest.found_mem diagnostic hmem)
  | @pass cursor _ _ _ hfound _ hrest ih =>
      have hsuffix := cursor.advance_within.toList_suffix
      have hlater := ih (hsorted.sublist hsuffix.sublist)
      refine List.pairwise_cons.mpr ⟨fun diagnostic hmem => ?_, hlater⟩
      rw [hfound]
      exact Cursor.current_start_le hsorted _ (hsuffix.subset (hrest.found_mem diagnostic hmem))

-- A stray token is behind the cursor once it is objected to.
theorem strays_nodup (h : Walk origin cursor diagnostics rest) (hnodup : cursor.toList.Nodup) :
    (diagnostics.filterMap Diagnostic.stray?).Nodup := by
  induction h with
  | stay => exact .nil
  | @take cursor _ _ _ ih => exact ih (hnodup.sublist cursor.advance_within.toList_suffix.sublist)
  | leave _ _ hstray _ ih =>
      rw [List.filterMap_cons_none hstray]
      exact ih hnodup
  | @pass cursor diagnostic diagnostics _ hfound hapt hrest ih =>
      have hlater := ih (hnodup.sublist cursor.advance_within.toList_suffix.sublist)
      cases hstray : diagnostic.stray? with
      | none =>
          rw [List.filterMap_cons_none hstray]
          exact hlater
      | some token =>
          obtain rfl := Diagnostic.stray?_eq_some hstray
          have hk : token.kind ≠ .eof := by
            rintro hk
            simp [Diagnostic.Apt, TokenKind.isStray, hk] at hapt
          change token = cursor.current at hfound
          subst hfound
          rw [Cursor.toList_eq_cons hk, List.nodup_cons] at hnodup
          rw [List.filterMap_cons_some hstray, List.nodup_cons]
          refine ⟨fun hmem => ?_, hlater⟩
          obtain ⟨other, hother, hsame⟩ := List.mem_filterMap.mp hmem
          obtain rfl := Diagnostic.stray?_eq_some hsame
          exact hnodup.1 (hrest.found_mem _ hother)

end Walk

namespace Reader

-- At a cursor behind the origin a reader does no more than that.
def WalksAt (origin : Cursor) (reader : Reader α) (cursor : Cursor) : Prop :=
  cursor.Within origin → Walk origin cursor (reader cursor).diagnostics (reader cursor).rest

def Walks (origin : Cursor) (reader : Reader α) : Prop := ∀ cursor, WalksAt origin reader cursor

-- The same with fewer tokens to come than a number.
def WalksBelow (origin : Cursor) (room : Nat) (reader : Reader α) : Prop :=
  ∀ cursor : Cursor, cursor.room < room → WalksAt origin reader cursor

namespace WalksAt

variable {origin cursor : Cursor} {reader : Reader α}

theorem congr {other : Reader α} (h : WalksAt origin other cursor)
    (heq : AgreesAt cursor other reader) : WalksAt origin reader cursor := by
  rw [AgreesAt] at heq
  rw [WalksAt, ← heq]
  exact h

theorem bind {next : α → Reader β} (h : WalksAt origin reader cursor)
    (hn : ∀ value, Walks origin (next value)) : WalksAt origin (reader >>= next) cursor :=
  fun hc => (h hc).trans (hn _ _ ((h hc).within.trans hc))

theorem map (f : α → β) (h : WalksAt origin reader cursor) :
    WalksAt origin (f <$> reader) cursor := by
  rw [WalksAt, map_apply]
  exact h

theorem current_bind {next : Token → Reader α} :
    WalksAt origin (current >>= next) cursor ↔ WalksAt origin (next cursor.current) cursor :=
  Iff.rfl

theorem following_bind {next : Token → Reader α} :
    WalksAt origin (following >>= next) cursor ↔ WalksAt origin (next cursor.following) cursor :=
  Iff.rfl

theorem report {diagnostic : Diagnostic} (hfound : diagnostic.found = cursor.current)
    (hapt : diagnostic.Apt origin) (hstray : diagnostic.stray? = none) :
    WalksAt origin (report diagnostic) cursor :=
  fun _ => .leave hfound hapt hstray .stay

end WalksAt

namespace Walks

variable {origin : Cursor} {reader item : Reader α}

theorem pure (value : α) : Walks origin (pure value) := fun _ _ => .stay

theorem bind {next : α → Reader β} (h : Walks origin reader)
    (hn : ∀ value, Walks origin (next value)) : Walks origin (reader >>= next) :=
  fun cursor => (h cursor).bind hn

theorem map (f : α → β) (h : Walks origin reader) : Walks origin (f <$> reader) :=
  fun cursor => (h cursor).map f

theorem advance : Walks origin advance := fun _ _ => .take .stay

theorem ite {p : Prop} [Decidable p] {yes no : Reader α} (hy : Walks origin yes)
    (hn : Walks origin no) :
    Walks origin (if p then yes else no) := by
  split
  · exact hy
  · exact hn

theorem isAt (kind : TokenKind) : Walks origin (isAt kind) := fun _ _ => .stay

theorem expect (kind : TokenKind) : Walks origin (expect kind) := by
  intro cursor
  rw [Reader.expect, WalksAt.current_bind]
  by_cases hk : cursor.current.kind = kind
  · rw [if_pos hk]
    exact (advance cursor).bind fun _ => .pure _
  · rw [if_neg hk]
    exact .report rfl hk rfl

theorem before (close : TokenKind) (h : Walks origin reader) :
    Walks origin (before close reader) :=
  h.bind fun _ => (expect close).bind fun _ => .pure _

theorem moreItems (hi : Walks origin item) (bound : Nat) :
    Walks origin (moreItems item bound) := by
  induction bound with
  | zero => exact .pure []
  | succ bound ih =>
      refine (isAt .comma).bind fun _ => .ite ?_ (.pure [])
      exact advance.bind fun _ => hi.bind fun _ => ih.bind fun _ => .pure _

theorem items (bound : Nat) (close : TokenKind) (hi : Walks origin item) :
    Walks origin (items bound close item) := by
  refine (isAt close).bind fun _ => .ite (advance.bind fun _ => .pure []) ?_
  exact before close (hi.bind fun _ => (moreItems hi bound).bind fun _ => .pure _)

theorem itemsUntil (stop : TokenKind) (hi : Walks origin item) (bound : Nat) :
    Walks origin (itemsUntil stop item bound) := by
  induction bound with
  | zero => exact .pure []
  | succ bound ih =>
      intro cursor
      rw [Reader.itemsUntil, WalksAt.current_bind]
      exact ite (.pure []) (hi.bind fun _ => ih.bind fun _ => .pure _) cursor

theorem cutOff {room : Nat} (value : α) (h : WalksBelow origin room reader) :
    Walks origin (cutOff room value reader) := by
  intro cursor
  by_cases hc : cursor.room < room
  · exact (h cursor hc).congr (cutOff_agrees room value reader cursor hc).symm
  · rw [WalksAt, Reader.cutOff, if_neg hc]
    exact fun _ => .stay

end Walks

end Reader

namespace Parser

open Reader

variable {origin : Cursor}

theorem identifier_walks : Walks origin identifier := by
  intro cursor
  rw [identifier, WalksAt.current_bind]
  split
  case h_1 => exact (Walks.advance cursor).bind fun _ => .pure _
  case h_2 hk => exact .bind (.report rfl hk rfl) fun _ => .pure _
  case h_3 hk _ => exact .bind (.report rfl hk rfl) fun _ => .pure _

-- A literal without a value is taken before the objection to it.
theorem literal_walks {cursor : Cursor} {value : Option Expr}
    (hunread : value = none → cursor.current.isUnread) :
    WalksAt origin (do
      let _ ← advance
      some <$> literal cursor.current value) cursor := by
  cases value with
  | some expr => exact (Walks.advance cursor).bind fun _ => .map _ (.pure expr)
  | none => exact fun _ => .pass rfl (hunread rfl) .stay

section Parts

variable {whole : Reader Expr} {above : Precedence → Reader Expr} {statement : Reader Stmt}
  (hw : Walks origin whole) (ha : ∀ floor, Walks origin (above floor))
  (hs : Walks origin statement) (bound : Nat)

theorem parameters_walk : Walks origin (parameters bound) := .items _ _ identifier_walks

include hw in
theorem parenthesised_walks : Walks origin (parenthesised whole) :=
  .bind (.expect _) fun _ => .before _ hw

include hs in
theorem blockRest_walks : Walks origin (blockRest bound statement) :=
  .before _ (.itemsUntil _ hs bound)

include hs in
theorem block_walks : Walks origin (block bound statement) :=
  .bind (.expect _) fun _ => blockRest_walks hs bound

include ha in
theorem binary_walks (op : BinaryOp) (left : Expr) : Walks origin (binary above op left) :=
  .bind .advance fun _ => .bind (ha _) fun _ => .pure _

include hw in
theorem call_walks (callee : Expr) : Walks origin (call whole bound callee) :=
  .bind .advance fun _ => .bind (.items _ _ hw) fun _ => .pure _

include hw in
theorem index_walks (array : Expr) : Walks origin (index whole array) :=
  .bind .advance fun _ => .bind (.before _ hw) fun _ => .pure _

include hw in
theorem nameOrAssignment_walks : Walks origin (nameOrAssignment whole) := by
  refine .bind .advance fun _ => .bind (.isAt _) fun _ => .ite ?_ (.pure _)
  exact .bind .advance fun _ => .bind hw fun _ => .pure _

include hw in
theorem grouped_walks : Walks origin (grouped whole) := .bind .advance fun _ => .before _ hw

include hw in
theorem arrayLiteral_walks : Walks origin (arrayLiteral whole bound) :=
  .bind .advance fun _ => .bind (.items _ _ hw) fun _ => .pure _

include hs in
theorem functionLiteral_walks : Walks origin (functionLiteral bound statement) :=
  .bind .advance fun _ => .bind (.expect _) fun _ => .bind (parameters_walk bound) fun _ =>
    .bind (block_walks hs bound) fun _ => .pure _

include ha in
theorem unary_walks (op : UnaryOp) : Walks origin (unary above op) :=
  .bind .advance fun _ => .bind (ha _) fun _ => .pure _

include ha hs in
theorem operandWith_walks : Walks origin (operandWith above bound statement) := by
  intro cursor
  rw [operandWith, WalksAt.current_bind]
  split
  case h_1 hk => exact .bind (.report rfl hk rfl) fun _ => .pure none
  case h_2 => exact Walks.pure none cursor
  case h_3 hk | h_4 hk =>
      apply literal_walks
      intro hnone
      rw [Option.map_eq_none_iff] at hnone
      simp [Token.isUnread, Token.leaf?, TokenKind.makesLeaf, hk, hnone]
  case h_5 | h_6 | h_7 => exact (Walks.advance cursor).bind fun _ => .pure _
  case h_8 => exact (nameOrAssignment_walks (ha _)).map _ cursor
  case h_9 => exact (grouped_walks (ha _)).map _ cursor
  case h_10 => exact (arrayLiteral_walks (ha _) bound).map _ cursor
  case h_11 => exact (functionLiteral_walks hs bound).map _ cursor
  case h_12 =>
      split
      · exact (unary_walks ha _).map _ cursor
      · -- No case is left in which the token begins an operand.
        have hstray : cursor.current.kind.isStray := by
          cases hk : cursor.current.kind <;> simp_all [TokenKind.isStray,
            Acceptance.beginsExpression, UnaryOp.ofToken?]
        exact fun _ => .pass rfl hstray .stay

include ha in
theorem operatorsWith_walks {operators : Expr → Reader Expr}
    (ho : ∀ left, Walks origin (operators left)) (floor : Precedence) (left : Expr) :
    Walks origin (operatorsWith above bound operators floor left) := by
  intro cursor
  rw [operatorsWith, WalksAt.current_bind]
  dsimp only
  split
  · exact Walks.pure left cursor
  · split
    · exact (binary_walks ha _ _).bind ho cursor
    · exact (call_walks (ha _) bound _).bind ho cursor
    · exact (index_walks (ha _) _).bind ho cursor
    · exact Walks.pure left cursor

theorem expressionWith_walks {operand : Reader (Option Expr)} {operators : Expr → Reader Expr}
    (hd : Walks origin operand) (ho : ∀ left, Walks origin (operators left)) :
    Walks origin (expressionWith operand operators) := by
  refine hd.bind fun left => ?_
  split
  · exact .pure _
  · exact ho _

theorem bindingHead_walks : Walks origin bindingHead :=
  .bind .advance fun _ => identifier_walks.bind fun _ => .bind (.expect _) fun _ => .pure _

-- Here the parser may have taken tokens of a value that is not there, and objects behind them.
include hw in
theorem letStatement_walks {cursor : Cursor} (hk : cursor.current.kind = .letWord)
    (hv : (whole cursor.valueStart).value = .missing →
      whole cursor.valueStart = Reader.expression .lowest cursor.valueStart) :
    WalksAt origin (letStatement whole) cursor := by
  intro hc
  have hhead := bindingHead_walks cursor hc
  have hstart : cursor.valueStart.Within origin := hhead.within.trans hc
  have hvalue := hw cursor.valueStart hstart
  rw [letStatement_eq]
  refine hhead.trans (hvalue.trans ?_)
  change Walk _ (whole cursor.valueStart).rest
    (bindingEnd _ (whole cursor.valueStart).value (whole cursor.valueStart).rest).diagnostics
    (bindingEnd _ (whole cursor.valueStart).value (whole cursor.valueStart).rest).rest
  by_cases hmissing : (whole cursor.valueStart).value = .missing
  · have hlacks : cursor.LacksValue (whole cursor.valueStart).rest.current := by
      have heq := hv hmissing
      rw [heq] at hmissing ⊢
      exact ⟨hk, hmissing, rfl⟩
    rw [hmissing]
    exact .leave rfl ⟨cursor, hc, hlacks⟩ rfl .stay
  · rw [bindingEnd_of_ne hmissing]
    have hsemicolon : Walks origin (do
        expect .semiColon
        return Stmt.bind (bindingHead cursor).value (whole cursor.valueStart).value) :=
      .bind (.expect _) fun _ => .pure _
    exact hsemicolon _ (hvalue.within.trans hstart)

include hw in
theorem returnStatement_walks : Walks origin (returnStatement whole) :=
  .bind .advance fun _ => .bind (.before _ hw) fun _ => .pure _

include hw hs in
theorem ifStatement_walks : Walks origin (ifStatement whole bound statement) := by
  refine .bind .advance fun _ => (parenthesised_walks hw).bind fun _ =>
    (block_walks hs bound).bind fun _ => .bind (.isAt _) fun _ => .ite ?_ (.pure _)
  exact .bind .advance fun _ => (block_walks hs bound).bind fun _ => .pure _

include hw hs in
theorem whileStatement_walks : Walks origin (whileStatement whole bound statement) :=
  .bind .advance fun _ => (parenthesised_walks hw).bind fun _ =>
    (block_walks hs bound).bind fun _ => .pure _

include hs in
theorem blockStatement_walks : Walks origin (blockStatement bound statement) :=
  .bind .advance fun _ => (blockRest_walks hs bound).bind fun _ => .pure _

include hs in
theorem definition_walks : Walks origin (definition bound statement) :=
  .bind .advance fun _ => .bind .advance fun _ => .bind (.expect _) fun _ =>
    (parameters_walk bound).bind fun _ => (block_walks hs bound).bind fun _ => .pure _

include hw hs in
theorem statementWith_walks (hv : ∀ cursor : Cursor, (whole cursor).value = .missing →
      whole cursor = Reader.expression .lowest cursor) :
    Walks origin (statementWith whole bound statement) := by
  intro cursor
  rw [statementWith, WalksAt.current_bind, WalksAt.following_bind]
  split
  case h_1 hk => exact letStatement_walks hw hk (hv _)
  case h_2 => exact returnStatement_walks hw cursor
  case h_3 => exact ifStatement_walks hw hs bound cursor
  case h_4 => exact whileStatement_walks hw hs bound cursor
  case h_5 => exact blockStatement_walks hs bound cursor
  case h_6 => exact definition_walks hs bound cursor
  case h_7 => exact (hw.before _).bind (fun _ => .pure _) cursor

end Parts

section Rounds

variable {room : Nat} (he : ∀ floor, WalksBelow origin room (Reader.expression floor))
  (hs : WalksBelow origin room Reader.statement)

-- Operands and operators take a token before they go on with an expression or a statement, so they
-- do not get to where these are cut off.

include he hs in
theorem operand_walksBelow : WalksBelow origin (room + 1) Reader.operand := by
  intro cursor hc
  apply (operandWith_walks (fun floor => .cutOff .missing (he floor))
    (.cutOff (.expression .missing) hs) room cursor).congr
  rw [AgreesAt, Reader.operand_apply (Nat.le_of_lt_succ hc)]
  exact operandWith_agrees (fun _ => cutOff_agrees _ _ _) Reader.expression_stays
    (cutOff_agrees _ _ _) Reader.statement_stays (fun _ _ h => Reader.statement_takes h)
    (by omega) (by omega) hc

include he in
theorem operators_walksBelow {floor : Precedence}
    (ho : ∀ left, WalksBelow origin room (Reader.operators floor left)) (left : Expr) :
    WalksBelow origin (room + 1) (Reader.operators floor left) := by
  intro cursor hc
  apply (operatorsWith_walks (fun floor => .cutOff .missing (he floor)) room
    (fun left => .cutOff left (ho left)) floor left cursor).congr
  rw [AgreesAt, Reader.operators_apply (Nat.le_of_lt_succ hc)]
  exact operatorsWith_agrees (fun _ => cutOff_agrees _ _ _) Reader.expression_stays
    (by omega) (by omega) hc (fun _ => cutOff_agrees _ _ _) floor left

theorem expression_walksBelow {floor : Precedence} (hd : WalksBelow origin room Reader.operand)
    (ho : ∀ left, WalksBelow origin room (Reader.operators floor left)) :
    WalksBelow origin room (Reader.expression floor) := by
  intro cursor hc
  apply (expressionWith_walks (.cutOff none hd) (fun left => .cutOff left (ho left)) cursor).congr
  rw [Reader.expression_eq]
  exact expressionWith_agrees (cutOff_agrees _ _ _) Reader.operand_stays
    (fun _ => cutOff_agrees _ _ _) cursor hc

-- A value stands for an expression that is cut off, so that no binding is said to lack it.
include hs in
theorem statement_walksBelow (hw : WalksBelow origin (room + 1) (Reader.expression .lowest)) :
    WalksBelow origin (room + 1) Reader.statement := by
  intro cursor hc
  have hvalue : ∀ cursor : Cursor,
      (cutOff (room + 1) (.boolean true) (Reader.expression .lowest) cursor).value = .missing →
        cutOff (room + 1) (.boolean true) (Reader.expression .lowest) cursor =
          Reader.expression .lowest cursor := by
    intro cursor hmissing
    apply cutOff_of_ne
    simp [hmissing]
  apply (statementWith_walks (.cutOff _ hw) (.cutOff (.expression .missing) hs) room hvalue
    cursor).congr
  rw [AgreesAt, Reader.statement_apply (Nat.le_of_lt_succ hc)]
  exact statementWith_agrees (cutOff_agrees _ _ _) Reader.statement_stays
    (fun _ _ h => Reader.statement_takes h) (by omega) (by omega) hc (cutOff_agrees _ _ _)
    (Reader.expression_stays _)

end Rounds

-- The parts of the parser only take tokens and object to them.
theorem walksBelow (origin : Cursor) (room : Nat) :
    WalksBelow origin room Reader.operand ∧
      (∀ floor left, WalksBelow origin room (Reader.operators floor left)) ∧
      (∀ floor, WalksBelow origin room (Reader.expression floor)) ∧
      WalksBelow origin room Reader.statement := by
  induction room with
  | zero => simp [WalksBelow]
  | succ room ih =>
      obtain ⟨-, ho, he, hs⟩ := ih
      have hdNext := operand_walksBelow he hs
      have hoNext := fun floor left => operators_walksBelow he (ho floor) left
      have heNext := fun floor => expression_walksBelow hdNext (hoNext floor)
      exact ⟨hdNext, hoNext, heNext, statement_walksBelow hs (heNext .lowest)⟩

theorem statement_walks (origin : Cursor) : Walks origin Reader.statement :=
  fun cursor => (walksBelow origin (cursor.room + 1)).2.2.2 cursor (Nat.lt_succ_self _)

end Parser

theorem Cursor.parse_walks (cursor : Cursor) :
    Walk cursor cursor cursor.parse.diagnostics cursor.parse.rest := by
  rw [Cursor.parse_eq (Nat.le_refl cursor.room)]
  exact (Parser.statement_walks cursor).itemsUntil .eof _ cursor (.refl cursor)

section Source

variable (source : String)

-- The tokens of a source stand one behind the other.
theorem tokenize_pairwise :
    (tokenize source).Pairwise fun first second => first.stop ≤ second.start := by
  have htiled := (Cursor.ofSource_scanned source).tiled String.utf8Len_nil
  rw [Nat.zero_add, ← Cursor.utf8ByteSize_eq] at htiled
  exact htiled.ordered.2

theorem tokenize_sorted :
    (tokenize source).Pairwise fun first second => first.start ≤ second.start :=
  (tokenize_pairwise source).imp fun h => Nat.le_trans (Nat.le_add_right _ _) h

-- So no two of them are the same.
theorem tokenize_nodup : (tokenize source).Nodup := by
  have hproper := (Cursor.ofSource_scanned source).proper
  have hpairs := (List.pairwise_append.mp (tokenize_pairwise source)).1
  rw [tokenize, Cursor.toList, List.nodup_append]
  refine ⟨hpairs.imp_of_mem fun {first second} hfirst _ hle => ?_, List.nodup_singleton _, ?_⟩
  · rintro rfl
    have hne := (hproper first hfirst).2
    have hsize : first.size = 0 := by
      unfold Token.stop at hle
      omega
    exact hne (String.utf8ByteSize_eq_zero_iff.mp hsize)
  · rintro token hmem other hother rfl
    obtain rfl := List.mem_singleton.mp hother
    exact (hproper _ hmem).1 rfl

end Source

theorem TokenKind.not_derives_expression {kind : TokenKind} (h : kind.isStray)
    (ending : Grammar.Ending) (kinds : List TokenKind) :
    ¬ Grammar.Derives (.expression ending) (kind :: kinds) := by
  intro hderives
  obtain ⟨-, hnil⟩ | ⟨first, rest, hcons, hbegins, -⟩ := (Acceptance.accepts hderives).begins
  · simp at hnil
  · obtain ⟨rfl, -⟩ := List.cons.inj hcons
    simp [isStray, hbegins] at h

-- What an objection to a source says of the token that it points at.
def Diagnostic.Justified : Diagnostic → Prop
  | expectedToken expected found => found.kind ≠ expected
  | expectedExpression _ => True
  | unexpectedToken found => found.kind ≠ .eof ∧ found.kind ≠ .semiColon ∧
      ∀ ending kinds, ¬ Grammar.Derives (.expression ending) (found.kind :: kinds)
  | unexpectedEnd found => found.kind = .eof
  | invalidLiteral found => found.kind = .integer ∧ 2147483647 < found.decimal

theorem Diagnostic.Apt.justified {diagnostic : Diagnostic} {origin : Cursor} {source : String}
    (h : diagnostic.Apt origin) (hmem : diagnostic.found ∈ tokenize source) :
    diagnostic.Justified := by
  cases diagnostic with
  | expectedToken _ _ | unexpectedEnd _ => exact h
  | expectedExpression _ => trivial
  | unexpectedToken found =>
      refine ⟨?_, ?_, TokenKind.not_derives_expression h⟩
      · intro hk
        simp [Apt, TokenKind.isStray, hk] at h
      · intro hk
        simp [Apt, TokenKind.isStray, hk] at h
  | invalidLiteral found =>
      obtain hmem | rfl := List.mem_append.mp hmem |>.imp_right List.mem_singleton.mp
      · rw [Apt, (Cursor.ofSource_lexed source found hmem).isUnread_eq] at h
        simpa [Token.isOversized, Justified] using h
      · simp [Apt, Cursor.finish, Token.isUnread, TokenKind.makesLeaf] at h

-- The objections to a source point at its tokens, in their order, and each says the truth of its
-- token. A stray token is objected to once.
theorem parse_diagnostics_placed (source : String) :
    (∀ diagnostic ∈ (parse source).diagnostics,
        diagnostic.found ∈ tokenize source ∧ diagnostic.Justified) ∧
      ((parse source).diagnostics.Pairwise fun first second =>
        first.found.start ≤ second.found.start) ∧
      ((parse source).diagnostics.filterMap Diagnostic.stray?).Nodup := by
  have hwalk := (Cursor.ofSource source).parse_walks
  refine ⟨fun diagnostic hmem => ?_, hwalk.ordered (tokenize_sorted source),
    hwalk.strays_nodup (tokenize_nodup source)⟩
  have hfound := hwalk.found_mem diagnostic hmem
  exact ⟨hfound, (hwalk.apt diagnostic hmem).justified hfound⟩

namespace Reader

-- In front of the end and of a semicolon an expression leaves all tokens where they are.
theorem expression_of_absent (floor : Precedence) {cursor : Cursor}
    (h : cursor.current.kind = .eof ∨ cursor.current.kind = .semiColon) :
    (expression floor cursor).rest = cursor := by
  have hoperand : (operand cursor).value = none ∧ (operand cursor).rest = cursor := by
    rw [operand_apply (Nat.le_refl _)]
    obtain h | h := h <;> simp [Parser.operandWith, current, report, h]
  rw [expression_eq, Parser.expressionWith, bind_apply, hoperand.1, hoperand.2]
  rfl

-- No two tokens of a source are the same, so the token that an expression stops at tells whether
-- it took any.
theorem expression_stops_at_start {source : String} {cursor : Cursor}
    (h : cursor.Within (.ofSource source)) (floor : Precedence) :
    (expression floor cursor).rest.current = cursor.current ↔
      cursor.current.kind = .eof ∨ cursor.current.kind = .semiColon := by
  constructor
  · intro hsame
    by_contra habsent
    obtain ⟨heof, hsemi⟩ := not_or.mp habsent
    have hbehind := (expression_takes floor heof hsemi).toList_suffix.subset
      (expression floor cursor).rest.current_mem_toList
    have hnodup := (tokenize_nodup source).sublist h.toList_suffix.sublist
    rw [Cursor.toList_eq_cons heof, List.nodup_cons] at hnodup
    rw [hsame] at hbehind
    exact hnodup.1 hbehind
  · intro habsent
    rw [expression_of_absent floor habsent]

end Reader

theorem Cursor.valueStart_within (cursor : Cursor) : cursor.valueStart.Within cursor :=
  (Parser.bindingHead_walks cursor (.refl cursor)).within

-- A binding is said to lack its value at the token where the parser gave up. That is where the
-- value should start just if the binding ends there. Otherwise tokens were taken in between.
theorem parse_expectedExpression {source : String} {found : Token}
    (h : .expectedExpression found ∈ (parse source).diagnostics) :
    ∃ binding : Cursor, binding.Within (.ofSource source) ∧ binding.LacksValue found ∧
      (found = binding.valueStart.current ↔
        binding.valueStart.current.kind = .eof ∨ binding.valueStart.current.kind = .semiColon) := by
  obtain ⟨binding, hwithin, hlacks⟩ := (Cursor.ofSource source).parse_walks.apt _ h
  refine ⟨binding, hwithin, hlacks, ?_⟩
  rw [← hlacks.found]
  exact Reader.expression_stops_at_start (binding.valueStart_within.trans hwithin) .lowest

theorem parse_expectedExpression_oversized :
    .expectedExpression ⟨.semiColon, 18, ";"⟩ ∈ (parse "let x = 2147483648;").diagnostics ∧
      ∃ binding : Cursor, binding.Within (.ofSource "let x = 2147483648;") ∧
        binding.LacksValue ⟨.semiColon, 18, ";"⟩ ∧
        (⟨.semiColon, 18, ";"⟩ = binding.valueStart.current ↔
          binding.valueStart.current.kind = .eof ∨
            binding.valueStart.current.kind = .semiColon) := by
  have hmem : .expectedExpression ⟨.semiColon, 18, ";"⟩ ∈
      (parse "let x = 2147483648;").diagnostics := by decide +kernel
  exact ⟨hmem, parse_expectedExpression hmem⟩

-- The value should start at the parenthesis, and the objection is to the integer behind it.
theorem expectedExpression_behind_stray :
    (Cursor.ofSource "let x = ) 5;").current.kind = .letWord ∧
      (Cursor.ofSource "let x = ) 5;").valueStart.current = ⟨.closeParen, 8, ")"⟩ ∧
      (parse "let x = ) 5;").diagnostics =
        [.unexpectedToken ⟨.closeParen, 8, ")"⟩, .expectedExpression ⟨.integer, 10, "5"⟩] := by
  decide +kernel

end Capuchin

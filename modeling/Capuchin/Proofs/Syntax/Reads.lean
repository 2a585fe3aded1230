import Capuchin.Proofs.Syntax.Fuel
import Capuchin.Proofs.Syntax.Grammar

-- What the parser does with tokens that it does not object to.
namespace Capuchin

-- The kinds of tokens that begin a statement other than an expression. A definition is told by
-- its second token.
def TokenKind.beginsStatement : TokenKind → Bool
  | .letWord | .returnWord | .ifWord | .whileWord | .openBrace => true
  | _ => false

namespace Cursor

-- From one cursor to another the tokens look as a list says.
def Spans (view : Token → β) (cursor rest : Cursor) (w : List β) : Prop :=
  cursor.stop = rest.stop ∧ ∃ used, cursor.ahead = used ++ rest.ahead ∧ used.map view = w

section Spans

variable {view : Token → β} {cursor rest : Cursor}

theorem spans_nil : Spans view cursor rest [] ↔ cursor = rest := by
  constructor
  · rintro ⟨hstop, used, hused, hmap⟩
    rw [List.map_eq_nil_iff] at hmap
    cases cursor
    cases rest
    simp_all
  · rintro rfl
    exact ⟨rfl, [], rfl, rfl⟩

theorem spans_cons {x : β} {w : List β} (h : Spans view cursor rest (x :: w)) :
    view cursor.current = x ∧ Spans view cursor.advance rest w := by
  obtain ⟨hstop, used, hused, hmap⟩ := h
  obtain ⟨token, more, rfl, hx, hmore⟩ := List.map_eq_cons_iff.mp hmap
  refine ⟨?_, hstop, more, ?_, hmore⟩
  · simp [current, hused, hx]
  · simp [advance, hused]

theorem spans_append {u v : List β} (h : Spans view cursor rest (u ++ v)) :
    ∃ middle, Spans view cursor middle u ∧ Spans view middle rest v := by
  obtain ⟨hstop, used, hused, hmap⟩ := h
  obtain ⟨first, second, rfl, hfirst, hsecond⟩ := List.map_eq_append_iff.mp hmap
  refine ⟨⟨second ++ rest.ahead, rest.stop⟩, ⟨hstop, first, ?_, hfirst⟩, rfl, second, rfl, hsecond⟩
  rw [hused, List.append_assoc]

-- The tokens up to a closing one, with that one, and those behind it.
theorem spans_closed {u v : List β} {x : β} (h : Spans view cursor rest (u ++ x :: v)) :
    ∃ middle, Spans view cursor middle (u ++ [x]) ∧ Spans view middle rest v := by
  rw [List.append_cons] at h
  exact spans_append h

end Spans

end Cursor

namespace Reader

-- Without an objection a reader gives a value and gets to a cursor.
def Reads (reader : Reader α) (cursor : Cursor) (value : α) (rest : Cursor) : Prop :=
  reader cursor = ⟨value, rest, []⟩

namespace Reads

variable {cursor middle rest : Cursor} {reader : Reader α} {value : α}

theorem pure : Reads (pure value) cursor value cursor := rfl

theorem bind {next : α → Reader β} {result : β} (h : Reads reader cursor value middle)
    (hn : Reads (next value) middle result rest) : Reads (reader >>= next) cursor result rest := by
  rw [Reads] at h hn ⊢
  simp [h, hn]

theorem bind_apply (next : α → Reader β) (h : Reads reader cursor value middle) :
    (reader >>= next) cursor = next value middle := by
  rw [Reads] at h
  simp [h]

theorem trans {other : Reader α} (h : reader cursor = other middle)
    (hn : Reads other middle value rest) : Reads reader cursor value rest :=
  Eq.trans h hn

theorem map (f : α → β) (h : Reads reader cursor value rest) :
    Reads (f <$> reader) cursor (f value) rest := by
  rw [Reads] at h ⊢
  simp [h]

theorem congr {same : Reader α} (h : reader cursor = same cursor)
    (hs : Reads same cursor value rest) : Reads reader cursor value rest :=
  h.trans hs

theorem current_bind_apply (next : Token → Reader α) :
    (current >>= next) cursor = next cursor.current cursor := rfl

theorem current_bind {next : Token → Reader α} :
    Reads (current >>= next) cursor value rest ↔
      Reads (next cursor.current) cursor value rest := Iff.rfl

theorem following_bind {next : Token → Reader α} :
    Reads (following >>= next) cursor value rest ↔
      Reads (next cursor.following) cursor value rest := Iff.rfl

theorem isAt_bind {kind : TokenKind} {next : Bool → Reader α} :
    Reads (isAt kind >>= next) cursor value rest ↔
      Reads (next (cursor.current.kind = kind)) cursor value rest := Iff.rfl

theorem advance_bind {next : Token → Reader α} :
    Reads (advance >>= next) cursor value rest ↔
      Reads (next cursor.current) cursor.advance value rest := Iff.rfl

theorem expect {kind : TokenKind} (h : cursor.current.kind = kind) :
    Reads (expect kind) cursor () cursor.advance := by
  simp [Reads, Reader.expect, h]

theorem before {close : TokenKind} (h : Reads reader cursor value rest)
    (hk : rest.current.kind = close) : Reads (before close reader) cursor value rest.advance :=
  h.bind ((expect hk).bind .pure)

section Lists

variable {values : List α} {bound : Nat}

theorem moreItems_nil (h : cursor.current.kind ≠ .comma) :
    Reads (moreItems reader bound) cursor [] cursor :=
  moreItems_of_ne h

theorem moreItems_cons (h : cursor.current.kind = .comma)
    (hi : Reads reader cursor.advance value middle)
    (hm : Reads (moreItems reader bound) middle values rest) :
    Reads (moreItems reader (bound + 1)) cursor (value :: values) rest := by
  rw [Reads, moreItems_succ h]
  exact hi.bind (hm.bind .pure)

theorem items_nil {close : TokenKind} (h : cursor.current.kind = close) :
    Reads (items bound close reader) cursor [] cursor.advance := by
  rw [items, isAt_bind]
  simp only [h, decide_true, if_true]
  exact .pure

theorem items_cons {close : TokenKind} (h : cursor.current.kind ≠ close)
    (hi : Reads reader cursor value middle)
    (hm : Reads (moreItems reader bound) middle values rest) (hk : rest.current.kind = close) :
    Reads (items bound close reader) cursor (value :: values) rest.advance := by
  rw [items, isAt_bind]
  simp only [h, decide_false, Bool.false_eq_true, if_false]
  exact .before (hi.bind (hm.bind .pure)) hk

theorem itemsUntil_nil {stop : TokenKind}
    (h : cursor.current.kind = .eof ∨ cursor.current.kind = stop) :
    Reads (itemsUntil stop reader bound) cursor [] cursor :=
  itemsUntil_of_stop h

theorem itemsUntil_cons {stop : TokenKind}
    (h : ¬(cursor.current.kind = .eof ∨ cursor.current.kind = stop))
    (hi : Reads reader cursor value middle)
    (hm : Reads (itemsUntil stop reader bound) middle values rest) :
    Reads (itemsUntil stop reader (bound + 1)) cursor (value :: values) rest := by
  rw [Reads, itemsUntil_succ h]
  exact hi.bind (hm.bind .pure)

end Lists

end Reads

namespace Reads

variable {cursor middle rest : Cursor}

section Operands

theorem operand_none (hk : cursor.current.kind = .semiColon) :
    Reads operand cursor none cursor := by
  refine .congr (operand_apply (Nat.le_refl _)) ?_
  rw [Parser.operandWith, current_bind]
  simp only [hk]
  exact .pure

theorem operand_integer {value : Int32} (hk : cursor.current.kind = .integer)
    (h : Integer.read? cursor.current.literal = some value) :
    Reads operand cursor (some (.integer value)) cursor.advance := by
  refine .congr (operand_apply (Nat.le_refl _)) ?_
  rw [Parser.operandWith, current_bind]
  simp only [hk, h, advance_bind]
  exact .map _ .pure

theorem operand_float {value : Float32} (hk : cursor.current.kind = .float)
    (h : FloatText.read? cursor.current.literal = some value) :
    Reads operand cursor (some (.float value)) cursor.advance := by
  refine .congr (operand_apply (Nat.le_refl _)) ?_
  rw [Parser.operandWith, current_bind]
  simp only [hk, h, advance_bind]
  exact .map _ .pure

theorem operand_string (hk : cursor.current.kind = .string) :
    Reads operand cursor (some (.string cursor.current.literal)) cursor.advance := by
  refine .congr (operand_apply (Nat.le_refl _)) ?_
  rw [Parser.operandWith, current_bind]
  simp only [hk, advance_bind]
  exact .pure

theorem operand_true (hk : cursor.current.kind = .trueWord) :
    Reads operand cursor (some (.boolean true)) cursor.advance := by
  refine .congr (operand_apply (Nat.le_refl _)) ?_
  rw [Parser.operandWith, current_bind]
  simp only [hk, advance_bind]
  exact .pure

theorem operand_false (hk : cursor.current.kind = .falseWord) :
    Reads operand cursor (some (.boolean false)) cursor.advance := by
  refine .congr (operand_apply (Nat.le_refl _)) ?_
  rw [Parser.operandWith, current_bind]
  simp only [hk, advance_bind]
  exact .pure

theorem operand_identifier (hk : cursor.current.kind = .identifier)
    (hnext : cursor.advance.current.kind ≠ .assign) :
    Reads operand cursor (some (.identifier cursor.current.literal)) cursor.advance := by
  refine .congr (operand_apply (Nat.le_refl _)) ?_
  rw [Parser.operandWith, current_bind]
  simp only [hk]
  refine .map _ ?_
  rw [Parser.nameOrAssignment, advance_bind, isAt_bind]
  simp only [hnext, decide_false, Bool.false_eq_true, if_false]
  exact .pure

theorem operand_assignment {value : Expr} (hk : cursor.current.kind = .identifier)
    (hnext : cursor.advance.current.kind = .assign)
    (h : Reads (expression .lowest) cursor.advance.advance value rest) :
    Reads operand cursor (some (.assignment cursor.current.literal value)) rest := by
  refine .congr (operand_apply (Nat.le_refl _)) ?_
  rw [Parser.operandWith, current_bind]
  simp only [hk]
  refine .map _ ?_
  rw [Parser.nameOrAssignment, advance_bind, isAt_bind]
  simp only [hnext, decide_true, if_true, advance_bind]
  exact h.bind .pure

theorem operand_grouped {value : Expr} (hk : cursor.current.kind = .openParen)
    (h : Reads (expression .lowest) cursor.advance value rest)
    (hclose : rest.current.kind = .closeParen) :
    Reads operand cursor (some value) rest.advance := by
  refine .congr (operand_apply (Nat.le_refl _)) ?_
  rw [Parser.operandWith, current_bind]
  simp only [hk]
  refine .map _ ?_
  rw [Parser.grouped, advance_bind]
  exact h.before hclose

theorem operand_array {elements : List Expr} (hk : cursor.current.kind = .openBracket)
    (h : Reads (items cursor.room .closeBracket (expression .lowest)) cursor.advance elements
      rest) :
    Reads operand cursor (some (.array elements)) rest := by
  refine .congr (operand_apply (Nat.le_refl _)) ?_
  rw [Parser.operandWith, current_bind]
  simp only [hk]
  refine .map _ ?_
  rw [Parser.arrayLiteral, advance_bind]
  exact h.bind .pure

theorem operand_function {names : List (Option String)} {body : List Stmt}
    (hk : cursor.current.kind = .fnWord) (hopen : cursor.advance.current.kind = .openParen)
    (hn : Reads (Parser.parameters cursor.room) cursor.advance.advance names middle)
    (hb : Reads (Parser.block cursor.room statement) middle body rest) :
    Reads operand cursor (some (.function names body)) rest := by
  refine .congr (operand_apply (Nat.le_refl _)) ?_
  rw [Parser.operandWith, current_bind]
  simp only [hk]
  refine .map _ ?_
  rw [Parser.functionLiteral, advance_bind]
  exact (Reads.expect hopen).bind (hn.bind (hb.bind .pure))

theorem operand_unary {op : UnaryOp} {value : Expr}
    (hop : UnaryOp.ofToken? cursor.current.kind = some op)
    (h : Reads (expression .unary) cursor.advance value rest) :
    Reads operand cursor (some (.unary op value)) rest := by
  have hu : Reads (some <$> Parser.unary expression op) cursor (some (.unary op value)) rest := by
    refine .map _ ?_
    rw [Parser.unary, advance_bind]
    exact h.bind .pure
  refine .congr (operand_apply (Nat.le_refl _)) ?_
  rw [Parser.operandWith, current_bind]
  split
  case h_12 => simpa only [hop] using hu
  all_goals simp_all [UnaryOp.ofToken?]

end Operands

section Operators

variable {floor : Precedence} {left value : Expr}

theorem operators_done (h : (Precedence.ofToken cursor.current.kind).rank ≤ floor.rank) :
    Reads (operators floor left) cursor left cursor :=
  operators_of_rank_le h

-- Behind an operator, an argument list or an index, the parser goes on with what it has.

theorem operators_binary {op : BinaryOp} {right : Expr}
    (hop : BinaryOp.ofToken? cursor.current.kind = some op)
    (hrank : floor.rank < (Precedence.ofToken cursor.current.kind).rank)
    (hr : Reads (expression (Precedence.ofToken cursor.current.kind)) cursor.advance right middle) :
    operators floor left cursor = operators floor (.binary op left right) middle := by
  have hb : Reads (Parser.binary expression op left) cursor (.binary op left right) middle := by
    rw [Parser.binary, advance_bind]
    exact hr.bind .pure
  rw [operators_apply (Nat.le_refl _), Parser.operatorsWith, current_bind_apply]
  simp only [Nat.not_le.mpr hrank, if_false, hop]
  exact hb.bind_apply _

theorem operators_call {arguments : List Expr} (hk : cursor.current.kind = .openParen)
    (hrank : floor.rank < Precedence.call.rank)
    (ha : Reads (items cursor.room .closeParen (expression .lowest)) cursor.advance arguments
      middle) :
    operators floor left cursor = operators floor (.call left arguments) middle := by
  have hc : Reads (Parser.call (expression .lowest) cursor.room left) cursor
      (.call left arguments) middle := by
    rw [Parser.call, advance_bind]
    exact ha.bind .pure
  have hlt : floor.rank < (Precedence.ofToken cursor.current.kind).rank := by
    rw [hk]
    exact hrank
  rw [operators_apply (Nat.le_refl _), Parser.operatorsWith, current_bind_apply]
  simp only [Nat.not_le.mpr hlt, if_false]
  simp only [hk, BinaryOp.ofToken?]
  exact hc.bind_apply _

theorem operators_index {position : Expr} (hk : cursor.current.kind = .openBracket)
    (hrank : floor.rank < Precedence.index.rank)
    (hp : Reads (expression .lowest) cursor.advance position middle)
    (hclose : middle.current.kind = .closeBracket) :
    operators floor left cursor = operators floor (.index left position) middle.advance := by
  have hi : Reads (Parser.index (expression .lowest) left) cursor (.index left position)
      middle.advance := by
    rw [Parser.index, advance_bind]
    exact (hp.before hclose).bind .pure
  have hlt : floor.rank < (Precedence.ofToken cursor.current.kind).rank := by
    rw [hk]
    exact hrank
  rw [operators_apply (Nat.le_refl _), Parser.operatorsWith, current_bind_apply]
  simp only [Nat.not_le.mpr hlt, if_false]
  simp only [hk, BinaryOp.ofToken?]
  exact hi.bind_apply _

theorem expression_none (h : Reads operand cursor none rest) :
    Reads (expression floor) cursor .missing rest := by
  rw [expression_eq, Parser.expressionWith]
  exact h.bind .pure

theorem expression_apply (h : Reads operand cursor (some left) middle) (floor : Precedence) :
    expression floor cursor = operators floor left middle := by
  rw [expression_eq, Parser.expressionWith]
  exact h.bind_apply _

theorem expression_some (h : Reads operand cursor (some left) middle)
    (hn : Reads (operators floor left) middle value rest) :
    Reads (expression floor) cursor value rest :=
  .trans (h.expression_apply floor) hn

end Operators

section Statements

variable {bound : Nat} {value condition : Expr} {body alternative : List Stmt}

theorem blockRest (hb : Reads (itemsUntil .closeBrace statement bound) cursor body rest)
    (hclose : rest.current.kind = .closeBrace) :
    Reads (Parser.blockRest bound statement) cursor body rest.advance :=
  hb.before hclose

theorem block (hopen : cursor.current.kind = .openBrace)
    (hb : Reads (Parser.blockRest bound statement) cursor.advance body rest) :
    Reads (Parser.block bound statement) cursor body rest :=
  (expect hopen).bind hb

theorem parenthesised (hopen : cursor.current.kind = .openParen)
    (hc : Reads (expression .lowest) cursor.advance condition rest)
    (hclose : rest.current.kind = .closeParen) :
    Reads (Parser.parenthesised (expression .lowest)) cursor condition rest.advance :=
  (expect hopen).bind (hc.before hclose)

theorem identifier (hk : cursor.current.kind = .identifier) :
    Reads Parser.identifier cursor (some cursor.current.literal) cursor.advance := by
  rw [Parser.identifier, current_bind]
  simp only [hk, advance_bind]
  exact .pure

theorem statement_let (hk : cursor.current.kind = .letWord)
    (hname : cursor.advance.current.kind = .identifier)
    (hmark : cursor.advance.advance.current.kind = .assign)
    (hv : Reads (expression .lowest) cursor.advance.advance.advance value rest)
    (hne : value ≠ .missing) (hlast : rest.current.kind = .semiColon) :
    Reads statement cursor (.bind (some cursor.advance.current.literal) value) rest.advance := by
  refine .congr (statement_apply (Nat.le_refl _)) ?_
  rw [Parser.statementWith, current_bind, following_bind]
  simp only [hk]
  rw [Parser.letStatement, advance_bind]
  refine (identifier hname).bind ((expect hmark).bind (hv.bind ?_))
  split
  · contradiction
  · exact (expect hlast).bind .pure

theorem statement_return (hk : cursor.current.kind = .returnWord)
    (hv : Reads (expression .lowest) cursor.advance value rest)
    (hlast : rest.current.kind = .semiColon) :
    Reads statement cursor (.giveBack value) rest.advance := by
  refine .congr (statement_apply (Nat.le_refl _)) ?_
  rw [Parser.statementWith, current_bind, following_bind]
  simp only [hk]
  rw [Parser.returnStatement, advance_bind]
  exact (hv.before hlast).bind .pure

theorem statement_ifThen (hk : cursor.current.kind = .ifWord)
    (hc : Reads (Parser.parenthesised (expression .lowest)) cursor.advance condition middle)
    (hb : Reads (Parser.block cursor.room statement) middle body rest)
    (hnext : rest.current.kind ≠ .elseWord) :
    Reads statement cursor (.ifThen condition body) rest := by
  refine .congr (statement_apply (Nat.le_refl _)) ?_
  rw [Parser.statementWith, current_bind, following_bind]
  simp only [hk]
  rw [Parser.ifStatement, advance_bind]
  refine hc.bind (hb.bind ?_)
  rw [isAt_bind]
  simp only [hnext, decide_false, Bool.false_eq_true, if_false]
  exact .pure

theorem statement_ifElse {last : Cursor} (hk : cursor.current.kind = .ifWord)
    (hc : Reads (Parser.parenthesised (expression .lowest)) cursor.advance condition middle)
    (hb : Reads (Parser.block cursor.room statement) middle body rest)
    (hnext : rest.current.kind = .elseWord)
    (ha : Reads (Parser.block cursor.room statement) rest.advance alternative last) :
    Reads statement cursor (.ifElse condition body alternative) last := by
  refine .congr (statement_apply (Nat.le_refl _)) ?_
  rw [Parser.statementWith, current_bind, following_bind]
  simp only [hk]
  rw [Parser.ifStatement, advance_bind]
  refine hc.bind (hb.bind ?_)
  rw [isAt_bind]
  simp only [hnext, decide_true, if_true, advance_bind]
  exact ha.bind .pure

theorem statement_while (hk : cursor.current.kind = .whileWord)
    (hc : Reads (Parser.parenthesised (expression .lowest)) cursor.advance condition middle)
    (hb : Reads (Parser.block cursor.room statement) middle body rest) :
    Reads statement cursor (.whileLoop condition body) rest := by
  refine .congr (statement_apply (Nat.le_refl _)) ?_
  rw [Parser.statementWith, current_bind, following_bind]
  simp only [hk]
  rw [Parser.whileStatement, advance_bind]
  exact hc.bind (hb.bind .pure)

theorem statement_block (hk : cursor.current.kind = .openBrace)
    (hb : Reads (Parser.blockRest cursor.room statement) cursor.advance body rest) :
    Reads statement cursor (.block body) rest := by
  refine .congr (statement_apply (Nat.le_refl _)) ?_
  rw [Parser.statementWith, current_bind, following_bind]
  simp only [hk]
  rw [Parser.blockStatement, advance_bind]
  exact hb.bind .pure

theorem statement_definition {names : List (Option String)} (hk : cursor.current.kind = .fnWord)
    (hname : cursor.advance.current.kind = .identifier)
    (hopen : cursor.advance.advance.current.kind = .openParen)
    (hn : Reads (Parser.parameters cursor.room) cursor.advance.advance.advance names middle)
    (hb : Reads (Parser.block cursor.room statement) middle body rest) :
    Reads statement cursor (.define cursor.advance.current.literal names body) rest := by
  have hfollowing : cursor.following.kind = .identifier := hname
  refine .congr (statement_apply (Nat.le_refl _)) ?_
  rw [Parser.statementWith, current_bind, following_bind]
  simp only [hk, hfollowing]
  rw [Parser.definition, advance_bind, advance_bind]
  exact (expect hopen).bind (hn.bind (hb.bind .pure))

theorem statement_expression (hk : cursor.current.kind.beginsStatement = false)
    (hfn : cursor.current.kind = .fnWord → cursor.advance.current.kind ≠ .identifier)
    (hv : Reads (expression .lowest) cursor value rest)
    (hlast : rest.current.kind = .semiColon) :
    Reads statement cursor (.expression value) rest.advance := by
  refine .congr (statement_apply (Nat.le_refl _)) ?_
  rw [Parser.statementWith, current_bind, following_bind]
  split
  case h_7 => exact (hv.before hlast).bind .pure
  case h_6 hk' hname => exact absurd hname (hfn hk')
  all_goals simp_all [TokenKind.beginsStatement]

end Statements

end Reads

-- Argument lists and indices from one cursor to another, and what they make of a tree.
inductive Suffixed : Expr → Cursor → Expr → Cursor → Prop where
  | done {tree : Expr} {cursor : Cursor} : Suffixed tree cursor tree cursor
  | call {tree value : Expr} {arguments : List Expr} {cursor middle rest : Cursor} :
      cursor.current.kind = .openParen →
      Reads (items cursor.room .closeParen (expression .lowest)) cursor.advance arguments middle →
      Suffixed (.call tree arguments) middle value rest → Suffixed tree cursor value rest
  | index {tree value position : Expr} {cursor middle rest : Cursor} :
      cursor.current.kind = .openBracket →
      Reads (expression .lowest) cursor.advance position middle →
      middle.current.kind = .closeBracket →
      Suffixed (.index tree position) middle.advance value rest → Suffixed tree cursor value rest

namespace Suffixed

variable {tree value : Expr} {cursor middle rest : Cursor}

theorem trans {called : Expr} (h : Suffixed tree cursor called middle)
    (hn : Suffixed called middle value rest) : Suffixed tree cursor value rest := by
  induction h with
  | done => exact hn
  | call hopen ha _ ih => exact .call hopen ha (ih hn)
  | index hopen hp hclose _ ih => exact .index hopen hp hclose (ih hn)

theorem ne_missing (h : Suffixed tree cursor value rest) (hne : tree ≠ .missing) :
    value ≠ .missing := by
  induction h with
  | done => exact hne
  | call _ _ _ ih => exact ih nofun
  | index _ _ _ _ ih => exact ih nofun

-- No floor below them holds them back.
theorem operators_eq (h : Suffixed tree cursor value rest) {floor : Precedence}
    (hfloor : floor.rank < Precedence.call.rank) :
    operators floor tree cursor = operators floor value rest := by
  induction h with
  | done => rfl
  | call hopen ha _ ih => exact (Reads.operators_call hopen hfloor ha).trans ih
  | index hopen hp hclose _ ih =>
      exact (Reads.operators_index hopen (Nat.lt_succ_of_lt hfloor) hp hclose).trans ih

end Suffixed

end Reader

end Capuchin

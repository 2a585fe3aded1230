import Capuchin.Proofs.Syntax.Acceptance
import Capuchin.Proofs.Syntax.Nodes
import Capuchin.Proofs.Token.Places
import Capuchin.Syntax.Printer
import Mathlib

-- The parser reads the text of a tree as that tree.
namespace Capuchin

open Reader Cursor Lexer

-- How a tree is written is unfolded all over this module.
attribute [local simp] Expr.text Stmt.text

namespace Rereading

-- Texts as lists of characters.
section Texts

theorem toList_intercalate_cons (separator first : String) (rest : List String) :
    (separator.intercalate (first :: rest)).toList =
      first.toList ++ rest.flatMap fun item => separator.toList ++ item.toList := by
  induction rest generalizing first with
  | nil => simp
  | cons second rest ih =>
      rw [String.intercalate_cons_cons, String.toList_append, String.toList_append, ih]
      simp

end Texts

section Operators

theorem piece_of_binary (op : BinaryOp) :
    ∃ kind, Piece kind op.symbol.toList ∧ BinaryOp.ofToken? kind = some op := by
  cases op with
  | add => exact ⟨.plus, piece_of_word (by decide), rfl⟩
  | sub => exact ⟨.minus, piece_of_word (by decide), rfl⟩
  | mul => exact ⟨.asterisk, piece_of_word (by decide), rfl⟩
  | div => exact ⟨.slash, piece_of_word (by decide), rfl⟩
  | less => exact ⟨.lessThan, piece_of_word (by decide), rfl⟩
  | greater => exact ⟨.greaterThan, piece_of_word (by decide), rfl⟩
  | lessEqual => exact ⟨.lessThanEquals, piece_of_word (by decide), rfl⟩
  | greaterEqual => exact ⟨.greaterThanEquals, piece_of_word (by decide), rfl⟩
  | equal => exact ⟨.equals, piece_of_word (by decide), rfl⟩
  | notEqual => exact ⟨.notEquals, piece_of_word (by decide), rfl⟩
  | and => exact ⟨.and, piece_of_word (by decide), rfl⟩
  | or => exact ⟨.or, piece_of_word (by decide), rfl⟩

theorem symbol_of_unary (op : UnaryOp) : ∃ c kind, op.symbol.toList = [c] ∧
    isSymbol ['=', '>'] c kind ∧ UnaryOp.ofToken? kind = some op := by
  cases op with
  | negate => exact ⟨'-', .minus, rfl, by decide +kernel, rfl⟩
  | not => exact ⟨'!', .bang, rfl, by decide +kernel, rfl⟩
  | plus => exact ⟨'+', .plus, rfl, by decide +kernel, rfl⟩

-- An operator in front of an operand does not go on with it.
theorem at_unary {op : UnaryOp} {cursor : Cursor} {rest : List Char}
    (hat : cursor.At (op.symbol.toList ++ rest)) (hrest : ∀ c ∈ rest.head?, c ∉ ['=', '>']) :
    UnaryOp.ofToken? cursor.current.kind = some op ∧ cursor.advance.At rest := by
  obtain ⟨c, kind, htext, hsymbol, hop⟩ := symbol_of_unary op
  rw [htext] at hat
  obtain ⟨hkind, hadvance⟩ := At.symbol hat hsymbol hrest
  exact ⟨hkind ▸ hop, hadvance⟩

end Operators

-- What a cursor finds first in a text.
def Begins (P : TokenKind → Prop) (text : List Char) : Prop :=
  ∀ cursor : Cursor, cursor.At text → P cursor.current.kind

-- What may stand behind an operand: no token that would go on with it.
def Parts (rest : List Char) : Prop := Breaks rest ∧ Begins (· ≠ .assign) rest

-- What may stand behind an expression: a token that ends it.
def Ends (rest : List Char) : Prop :=
  Breaks rest ∧ Begins (fun kind => (Precedence.ofToken kind).rank = 0) rest

theorem Ends.parts {rest : List Char} (h : Ends rest) : Parts rest := by
  refine ⟨h.1, fun cursor hat hassign => ?_⟩
  have hrank := h.2 cursor hat
  rw [hassign] at hrank
  exact absurd hrank (by decide)

theorem begins_mark {P : TokenKind → Prop} {c : Char} {rest : List Char} (kind : TokenKind)
    (hmem : (c, kind) ∈ marks) (h : P kind) : Begins P (c :: rest) := by
  intro cursor hat
  rw [(hat.mark kind hmem).1]
  exact h

theorem ends_mark {c : Char} {rest : List Char} (kind : TokenKind) (hmem : (c, kind) ∈ marks)
    (hrank : (Precedence.ofToken kind).rank = 0) (hc : c ∈ separators) : Ends (c :: rest) := by
  refine ⟨?_, begins_mark kind hmem hrank⟩
  intro first hfirst
  obtain rfl : c = first := by simpa using hfirst
  exact hc

theorem ends_closeParen (rest : List Char) : Ends (')' :: rest) :=
  ends_mark .closeParen (by decide) rfl (by decide)

theorem ends_closeBracket (rest : List Char) : Ends (']' :: rest) :=
  ends_mark .closeBracket (by decide) rfl (by decide)

theorem ends_semiColon (rest : List Char) : Ends (';' :: rest) :=
  ends_mark .semiColon (by decide) rfl (by decide)

section Lists

variable {item : Reader α} {spell : α → String} {close : TokenKind} {c : Char}

-- The text of an item is read as the item, and does not begin like the end of a list.
structure ItemRereads (item : Reader α) (spell : α → String) (close : TokenKind) (value : α) :
    Prop where
  first : ∀ cursor rest, Breaks rest → Cursor.At cursor ((spell value).toList ++ rest) →
    cursor.current.kind ≠ close
  reads : ∀ cursor rest, Ends rest → Cursor.At cursor ((spell value).toList ++ rest) →
    ∃ middle : Cursor, middle.At rest ∧ Reads item cursor value middle

-- The brackets that end lists.
def closers : List (Char × TokenKind) := [(')', .closeParen), (']', .closeBracket)]

theorem ends_closer (hmem : (c, close) ∈ closers) (rest : List Char) : Ends (c :: rest) := by
  simp only [closers, List.mem_cons, Prod.mk.injEq, List.not_mem_nil, or_false] at hmem
  obtain ⟨rfl, rfl⟩ | ⟨rfl, rfl⟩ := hmem
  · exact ends_closeParen rest
  · exact ends_closeBracket rest

theorem mark_of_closer (hmem : (c, close) ∈ closers) : (c, close) ∈ marks ∧ close ≠ .comma := by
  simp only [closers, List.mem_cons, Prod.mk.injEq, List.not_mem_nil, or_false] at hmem
  obtain ⟨rfl, rfl⟩ | ⟨rfl, rfl⟩ := hmem
  · decide
  · decide

def further (spell : α → String) (values : List α) : List Char :=
  values.flatMap fun value => ',' :: ' ' :: (spell value).toList

theorem ends_further (hmem : (c, close) ∈ closers) (values : List α) (rest : List Char) :
    Ends (further spell values ++ c :: rest) := by
  cases values with
  | nil => exact ends_closer hmem rest
  | cons value values => exact ends_mark .comma (by decide) rfl (by decide)

theorem toList_commaSeparated_cons (value : α) (values : List α) :
    (Printer.commaSeparated ((value :: values).map spell)).toList =
      (spell value).toList ++ further spell values := by
  rw [Printer.commaSeparated, List.map_cons, toList_intercalate_cons]
  simp [further, List.flatMap_map]

theorem furtherItems_reread (hs : Stays item) (hmem : (c, close) ∈ closers) {values : List α}
    (hvalues : ∀ value ∈ values, ItemRereads item spell close value) {cursor : Cursor}
    {rest : List Char} (hat : cursor.At (further spell values ++ c :: rest)) {bound : Nat}
    (hb : cursor.room ≤ bound) :
    ∃ middle : Cursor, middle.At (c :: rest) ∧
      Reads (moreItems item bound) cursor values middle := by
  induction values generalizing cursor bound with
  | nil =>
      obtain ⟨hmark, hne⟩ := mark_of_closer hmem
      have hkind := (At.mark close hat hmark).1
      exact ⟨cursor, hat, .moreItems_nil (by rwa [hkind])⟩
  | cons value values ih =>
      have htext : further spell (value :: values) ++ c :: rest =
          ',' :: ' ' :: ((spell value).toList ++ (further spell values ++ c :: rest)) := by
        simp [further]
      rw [htext] at hat
      obtain ⟨hcomma, hnext⟩ := hat.mark .comma (by decide)
      obtain ⟨middle, hmiddle, hvalue⟩ := (hvalues value List.mem_cons_self).reads _ _
        (ends_further hmem values rest) (at_space.mp hnext)
      have hlt := cursor.room_advance_lt (by simp [hcomma])
      have hle := (hvalue.within hs).room_le
      obtain ⟨bound, rfl⟩ : ∃ k, bound = k + 1 := ⟨bound - 1, by omega⟩
      have htail : ∀ value ∈ values, ItemRereads item spell close value :=
        fun value hv => hvalues value (List.mem_cons_of_mem _ hv)
      have hbound : middle.room ≤ bound := by omega
      obtain ⟨last, hlast, hmore⟩ := ih htail hmiddle hbound
      exact ⟨last, hlast, .moreItems_cons hcomma hvalue hmore⟩

-- A list is read up to and with the bracket behind it.
theorem items_reread (hs : Stays item) (hmem : (c, close) ∈ closers) {values : List α}
    (hvalues : ∀ value ∈ values, ItemRereads item spell close value) {cursor : Cursor}
    {rest : List Char}
    (hat : cursor.At ((Printer.commaSeparated (values.map spell)).toList ++ c :: rest))
    {bound : Nat} (hb : cursor.room ≤ bound) :
    ∃ middle : Cursor, middle.At rest ∧ Reads (items bound close item) cursor values middle := by
  have hmark := (mark_of_closer hmem).1
  cases values with
  | nil =>
      obtain ⟨hkind, hadvance⟩ := At.mark close hat hmark
      exact ⟨cursor.advance, hadvance, .items_nil hkind⟩
  | cons value values =>
      rw [toList_commaSeparated_cons, List.append_assoc] at hat
      have hvalue := hvalues value List.mem_cons_self
      have hends : Ends (further spell values ++ c :: rest) := ends_further hmem values rest
      have hne := hvalue.first cursor _ hends.1 hat
      obtain ⟨middle, hmiddle, hreads⟩ := hvalue.reads cursor _ hends hat
      have hle := (hreads.within hs).room_le
      have hbound : middle.room ≤ bound := by omega
      obtain ⟨last, hlast, hmore⟩ := furtherItems_reread hs hmem
        (fun value hv => hvalues value (List.mem_cons_of_mem _ hv)) hmiddle hbound
      obtain ⟨hkind, hadvance⟩ := hlast.mark close hmark
      exact ⟨last.advance, hadvance, .items_cons hne hreads hmore hkind⟩

end Lists

-- A text that goes on with no operator in front of it.
def Visible (text : List Char) : Prop := ∃ c more, text = c :: more ∧ c ∉ ['=', '>']

theorem Visible.append {text : List Char} (h : Visible text) (rest : List Char) :
    Visible (text ++ rest) := by
  obtain ⟨c, more, rfl, hvisible⟩ := h
  exact ⟨c, more ++ rest, rfl, hvisible⟩

theorem Visible.of_append {text word : List Char} (htext : text ++ [] = word) (h : Visible word) :
    Visible text := by
  rwa [← htext, List.append_nil] at h

-- The text of an expression is read as the expression. An assignment takes all behind it up to a
-- token that ends it; what is no assignment also stands in front of operators.
structure Rereads (expr : Expr) : Prop where
  visible : Visible expr.text.toList
  first : ∀ cursor rest, Breaks rest → Cursor.At cursor (expr.text.toList ++ rest) →
    Acceptance.beginsExpression cursor.current.kind ∧
      (cursor.current.kind = .fnWord → cursor.advance.current.kind = .openParen)
  continues : expr.isAssignment = false → ∀ floor cursor rest,
    floor.rank < Precedence.call.rank → Parts rest → Cursor.At cursor (expr.text.toList ++ rest) →
      ∃ middle : Cursor, middle.At rest ∧ expression floor cursor = operators floor expr middle
  reads : ∀ floor cursor rest, floor.rank < Precedence.call.rank → Ends rest →
    Cursor.At cursor (expr.text.toList ++ rest) →
      ∃ middle : Cursor, middle.At rest ∧ Reads (expression floor) cursor expr middle

namespace Rereads

variable {expr : Expr}

theorem of_continues (visible : Visible expr.text.toList)
    (first : ∀ cursor rest, Breaks rest → Cursor.At cursor (expr.text.toList ++ rest) →
      Acceptance.beginsExpression cursor.current.kind ∧
        (cursor.current.kind = .fnWord → cursor.advance.current.kind = .openParen))
    (continues : ∀ floor cursor rest, floor.rank < Precedence.call.rank → Parts rest →
      Cursor.At cursor (expr.text.toList ++ rest) →
        ∃ middle : Cursor, middle.At rest ∧ expression floor cursor = operators floor expr middle) :
    Rereads expr where
  visible := visible
  first := first
  continues := fun _ => continues
  reads := by
    intro floor cursor rest hfloor hrest hat
    obtain ⟨middle, hmiddle, heq⟩ := continues floor cursor rest hfloor hrest.parts hat
    have hrank := hrest.2 middle hmiddle
    exact ⟨middle, hmiddle, .trans heq (.operators_done (by omega))⟩

theorem of_operand (visible : Visible expr.text.toList)
    (first : ∀ cursor rest, Breaks rest → Cursor.At cursor (expr.text.toList ++ rest) →
      Acceptance.beginsExpression cursor.current.kind ∧
        (cursor.current.kind = .fnWord → cursor.advance.current.kind = .openParen))
    (operand : ∀ cursor rest, Parts rest → Cursor.At cursor (expr.text.toList ++ rest) →
      ∃ middle : Cursor, middle.At rest ∧ Reads operand cursor (some expr) middle) :
    Rereads expr := by
  refine of_continues visible first fun floor cursor rest _ hrest hat => ?_
  obtain ⟨middle, hmiddle, hreads⟩ := operand cursor rest hrest hat
  exact ⟨middle, hmiddle, hreads.expression_apply floor⟩

-- An expression that is one token.
theorem of_piece {kind : TokenKind} {word : List Char} (hp : Piece kind word)
    (htext : expr.text.toList = word) (hvisible : ∀ c ∈ word.head?, c ∉ ['=', '>'])
    (hk : Acceptance.beginsExpression kind) (hfn : kind ≠ .fnWord)
    (hreads : ∀ cursor : Cursor, cursor.current.kind = kind →
      cursor.current.literal = String.ofList word → cursor.advance.current.kind ≠ .assign →
        Reads operand cursor (some expr) cursor.advance) : Rereads expr := by
  obtain ⟨c, more, hword, -⟩ := hp.visible
  refine of_operand ⟨c, more, htext.trans hword, hvisible c (by simp [hword])⟩ ?_ ?_
  · intro cursor rest hrest hat
    rw [htext] at hat
    obtain ⟨hkind, -, -⟩ := hat.piece hp hrest
    rw [hkind]
    exact ⟨hk, fun h => absurd h hfn⟩
  · intro cursor rest hrest hat
    rw [htext] at hat
    obtain ⟨hkind, hliteral, hadvance⟩ := hat.piece hp hrest.1
    exact ⟨cursor.advance, hadvance, hreads cursor hkind hliteral (hrest.2 _ hadvance)⟩

theorem isIdentifierStart_visible {c : Char} (h : Pattern.isIdentifierStart c) :
    c ∉ ['=', '>'] := by
  intro hmem
  obtain rfl | rfl : c = '=' ∨ c = '>' := by simpa using hmem
  · exact absurd h (by decide)
  · exact absurd h (by decide)

theorem isDigit_visible {c : Char} (h : c.isDigit) : c ∉ ['=', '>'] := by
  intro hmem
  obtain rfl | rfl : c = '=' ∨ c = '>' := by simpa using hmem
  · exact absurd h (by decide)
  · exact absurd h (by decide)

theorem identifier {token : Token} (h : token.Lexed) (hk : token.kind = .identifier) :
    Rereads (.identifier token.literal) := by
  obtain ⟨hp, c, more, hliteral, hstart⟩ := piece_of_identifier h hk
  refine of_piece hp rfl ?_ rfl (by decide) fun cursor hkind hword hnext => ?_
  · rw [hliteral]
    rintro _ ⟨⟩
    exact isIdentifierStart_visible hstart
  · rw [String.ofList_toList] at hword
    rw [← hword]
    exact .operand_identifier hkind hnext

theorem integer {token : Token} {value : Int32} (h : token.Lexed) (hk : token.kind = .integer)
    (hread : Integer.read? token.literal = some value) : Rereads (.integer value) := by
  obtain ⟨digits, htext, hne, hdigits, hself⟩ := h.integer_reread hk hread
  have hlist : (Expr.integer value).text.toList = digits := by
    rw [Expr.text, htext, String.toList_ofList]
  refine of_piece (piece_of_digits hne hdigits) hlist ?_ rfl (by decide)
    fun cursor hkind hword _ => ?_
  · intro c hc
    exact isDigit_visible (hdigits c (List.mem_of_mem_head? hc))
  · exact .operand_integer hkind (by rw [hword, ← htext, hself])

theorem float {bits : Nat} (hbits : bits ≤ Binary32.infinity)
    (h : FloatText.Between (-4) 16 (FloatText.ofMagnitude false bits)) :
    Rereads (.float (FloatText.ofMagnitude false bits)) := by
  have hpositional := FloatText.text_positional hbits h
  have hself := hpositional.read?
  obtain ⟨whole, fraction, htext, hne, hwhole, hfraction, -⟩ := hpositional
  have hlist : (Expr.float (FloatText.ofMagnitude false bits)).text.toList =
      whole ++ '.' :: fraction := by
    rw [Expr.text, htext, String.toList_ofList]
  refine of_piece (piece_of_pointed hne hwhole hfraction) hlist ?_ rfl (by decide)
    fun cursor hkind hword _ => ?_
  · obtain ⟨first, more, rfl⟩ := List.exists_cons_of_ne_nil hne
    rintro _ ⟨⟩
    exact isDigit_visible (hwhole first (by simp))
  · exact .operand_float hkind (by rw [hword, ← htext, hself])

theorem string {token : Token} (h : token.Inner) (hk : token.kind = .string) :
    Rereads (.string token.literal) := by
  obtain ⟨hp, hquote⟩ := piece_of_string h hk
  refine of_piece hp rfl ?_ rfl (by decide) fun cursor hkind hword _ => ?_
  · rw [hquote]
    rintro _ ⟨⟩
    decide
  · rw [String.ofList_toList] at hword
    rw [← hword]
    exact .operand_string hkind

theorem boolean (value : Bool) : Rereads (.boolean value) := by
  cases value with
  | true =>
      have hp : Piece .trueWord "true".toList := piece_of_word (by decide)
      exact of_piece hp rfl (by rintro _ ⟨⟩; decide) rfl (by decide)
        fun cursor hkind _ _ => .operand_true hkind
  | false =>
      have hp : Piece .falseWord "false".toList := piece_of_word (by decide)
      exact of_piece hp rfl (by rintro _ ⟨⟩; decide) rfl (by decide)
        fun cursor hkind _ _ => .operand_false hkind

section Compound

variable {left right operand callee target position value : Expr} {arguments elements : List Expr}

-- A parenthesis with an expression behind it that is read up to the closing one.
theorem grouped {cursor middle : Cursor} {rest : List Char}
    (hopen : cursor.current.kind = .openParen)
    (hreads : Reads (expression .lowest) cursor.advance expr middle)
    (hmiddle : middle.At (')' :: rest)) :
    ∃ last : Cursor, last.At rest ∧ Reads Reader.operand cursor (some expr) last := by
  obtain ⟨hclose, hadvance⟩ := hmiddle.mark .closeParen (by decide)
  exact ⟨middle.advance, hadvance, .operand_grouped hopen hreads hclose⟩

theorem first_openParen {text : List Char} {cursor : Cursor} (hat : cursor.At ('(' :: text)) :
    Acceptance.beginsExpression cursor.current.kind ∧
      (cursor.current.kind = .fnWord → cursor.advance.current.kind = .openParen) := by
  rw [(hat.mark .openParen (by decide)).1]
  exact ⟨rfl, nofun⟩

theorem binary {op : BinaryOp} (hl : Rereads left) (hr : Rereads right)
    (hassign : left.isAssignment = false) : Rereads (.binary op left right) := by
  have htext : ∀ rest, (Expr.binary op left right).text.toList ++ rest =
      '(' :: (left.text.toList ++ ' ' :: (op.symbol.toList ++ ' ' ::
        (right.text.toList ++ ')' :: rest))) := by
    intro rest
    simp
  obtain ⟨kind, hp, hop⟩ := piece_of_binary op
  refine of_operand (.of_append (htext []) ⟨'(', _, rfl, by decide⟩)
    (fun cursor rest _ hat => first_openParen (htext rest ▸ hat)) fun cursor rest _ hat => ?_
  rw [htext] at hat
  obtain ⟨hopen, hleft⟩ := hat.mark .openParen (by decide)
  have hparts : Parts (' ' :: (op.symbol.toList ++ ' ' :: (right.text.toList ++ ')' :: rest))) := by
    refine ⟨.cons (by decide) _, fun other hother => ?_⟩
    rw [((at_space.mp hother).piece hp (.cons (by decide) _)).1]
    exact BinaryOp.kind_ne hop .assign rfl
  obtain ⟨middle, hmiddle, heq⟩ := hl.continues hassign .lowest _ _ (by decide) hparts hleft
  obtain ⟨hkind, -, hright⟩ :=
    (at_space.mp hmiddle).piece hp (.cons (by decide) _)
  obtain ⟨last, hlast, hreads⟩ := hr.reads (Precedence.ofToken kind) _ _
    (Acceptance.rank_of_binary hop).2 (ends_closeParen rest) (at_space.mp hright)
  have hclose := hlast.mark .closeParen (by decide)
  have hbinary : Reads (operators .lowest left) middle (.binary op left right) last := by
    refine .trans (Reads.operators_binary (hkind ▸ hop) ?_ (hkind ▸ hreads)) (.operators_done ?_)
    · rw [hkind]
      exact (Acceptance.rank_of_binary hop).1
    · rw [hclose.1]
      decide
  exact grouped hopen (.trans heq hbinary) hlast

theorem unary {op : UnaryOp} (h : Rereads operand) : Rereads (.unary op operand) := by
  have htext : ∀ rest, (Expr.unary op operand).text.toList ++ rest =
      '(' :: (op.symbol.toList ++ (operand.text.toList ++ ')' :: rest)) := by
    intro rest
    simp
  refine of_operand (.of_append (htext []) ⟨'(', _, rfl, by decide⟩)
    (fun cursor rest _ hat => first_openParen (htext rest ▸ hat)) fun cursor rest _ hat => ?_
  rw [htext] at hat
  obtain ⟨hopen, hinside⟩ := hat.mark .openParen (by decide)
  obtain ⟨c, more, hoperand, hvisible⟩ := h.visible
  obtain ⟨hop, hnext⟩ := at_unary hinside (by
    rw [hoperand]
    rintro _ ⟨⟩
    exact hvisible)
  obtain ⟨last, hlast, hreads⟩ := h.reads .unary _ _ (by decide) (ends_closeParen rest) hnext
  have hclose := hlast.mark .closeParen (by decide)
  have hunary : Reads (expression .lowest) cursor.advance (.unary op operand) last := by
    refine .expression_some (.operand_unary hop hreads) (.operators_done ?_)
    rw [hclose.1]
    decide
  exact grouped hopen hunary hlast

-- An expression of a list does not begin like the end of the list.
theorem item (h : Rereads expr) {c : Char} {close : TokenKind} (hmem : (c, close) ∈ closers) :
    ItemRereads (expression .lowest) Expr.text close expr where
  first := by
    intro cursor rest hrest hat hclose
    have hbegins := (h.first cursor rest hrest hat).1
    rw [hclose] at hbegins
    simp only [closers, List.mem_cons, Prod.mk.injEq, List.not_mem_nil, or_false] at hmem
    obtain ⟨-, rfl⟩ | ⟨-, rfl⟩ := hmem <;> simp [Acceptance.beginsExpression] at hbegins
  reads := fun cursor rest hrest hat => h.reads .lowest cursor rest (by decide) hrest hat

theorem array (h : ∀ element ∈ elements, Rereads element) : Rereads (.array elements) := by
  have htext : ∀ rest, (Expr.array elements).text.toList ++ rest =
      '[' :: ((Printer.commaSeparated (elements.map Expr.text)).toList ++ ']' :: rest) := by
    intro rest
    simp [exprTexts_eq_map]
  refine of_operand (.of_append (htext []) ⟨'[', _, rfl, by decide⟩) ?_ ?_
  · intro cursor rest _ hat
    rw [htext] at hat
    rw [(hat.mark .openBracket (by decide)).1]
    exact ⟨rfl, nofun⟩
  · intro cursor rest _ hat
    rw [htext] at hat
    obtain ⟨hopen, hinside⟩ := hat.mark .openBracket (by decide)
    have hmem : (']', TokenKind.closeBracket) ∈ closers := by decide
    obtain ⟨middle, hmiddle, hreads⟩ := items_reread (expression_stays .lowest) hmem
      (fun element helement => (h element helement).item hmem) hinside
      cursor.advance_within.room_le
    exact ⟨middle, hmiddle, .operand_array hopen hreads⟩

theorem call (hc : Rereads callee) (hassign : callee.isAssignment = false)
    (ha : ∀ argument ∈ arguments, Rereads argument) : Rereads (.call callee arguments) := by
  have htext : ∀ rest, (Expr.call callee arguments).text.toList ++ rest =
      callee.text.toList ++ '(' ::
        ((Printer.commaSeparated (arguments.map Expr.text)).toList ++ ')' :: rest) := by
    intro rest
    simp [exprTexts_eq_map]
  refine of_continues (.of_append (htext []) (hc.visible.append _)) ?_
    fun floor cursor rest hfloor _ hat => ?_
  · intro cursor rest _ hat
    rw [htext] at hat
    exact hc.first cursor _ (.cons (by decide) _) hat
  · rw [htext] at hat
    have hparts : Parts ('(' ::
        ((Printer.commaSeparated (arguments.map Expr.text)).toList ++ ')' :: rest)) :=
      ⟨.cons (by decide) _, begins_mark .openParen (by decide) (by decide)⟩
    obtain ⟨behind, hbehind, heq⟩ := hc.continues hassign floor cursor _ hfloor hparts hat
    obtain ⟨hopen, hinside⟩ := hbehind.mark .openParen (by decide)
    have hmem : (')', TokenKind.closeParen) ∈ closers := by decide
    obtain ⟨middle, hmiddle, hreads⟩ := items_reread (expression_stays .lowest) hmem
      (fun argument hargument => (ha argument hargument).item hmem) hinside
      behind.advance_within.room_le
    exact ⟨middle, hmiddle, heq.trans (Reads.operators_call hopen hfloor hreads)⟩

theorem index (ha : Rereads target) (hassign : target.isAssignment = false)
    (hp : Rereads position) : Rereads (.index target position) := by
  have htext : ∀ rest, (Expr.index target position).text.toList ++ rest =
      target.text.toList ++ '[' :: (position.text.toList ++ ']' :: rest) := by
    intro rest
    simp
  refine of_continues (.of_append (htext []) (ha.visible.append _)) ?_
    fun floor cursor rest hfloor _ hat => ?_
  · intro cursor rest _ hat
    rw [htext] at hat
    exact ha.first cursor _ (.cons (by decide) _) hat
  · rw [htext] at hat
    have hparts : Parts ('[' :: (position.text.toList ++ ']' :: rest)) :=
      ⟨.cons (by decide) _, begins_mark .openBracket (by decide) (by decide)⟩
    obtain ⟨behind, hbehind, heq⟩ := ha.continues hassign floor cursor _ hfloor hparts hat
    obtain ⟨hopen, hinside⟩ := hbehind.mark .openBracket (by decide)
    obtain ⟨middle, hmiddle, hreads⟩ :=
      hp.reads .lowest _ _ (by decide) (ends_closeBracket rest) hinside
    obtain ⟨hclose, hadvance⟩ := hmiddle.mark .closeBracket (by decide)
    have hlt : floor.rank < Precedence.index.rank := by
      simp only [Precedence.rank] at hfloor ⊢
      omega
    exact ⟨middle.advance, hadvance, heq.trans (Reads.operators_index hopen hlt hreads hclose)⟩

-- An assignment goes on to the end of the expression.
theorem assignment {token : Token} (h : token.Lexed) (hk : token.kind = .identifier)
    (hv : Rereads value) : Rereads (.assignment token.literal value) := by
  have htext : ∀ rest, (Expr.assignment token.literal value).text.toList ++ rest =
      token.literal.toList ++ ' ' :: ("=".toList ++ ' ' :: (value.text.toList ++ rest)) := by
    intro rest
    simp
  have hname := identifier h hk
  obtain ⟨hp, -⟩ := piece_of_identifier h hk
  have hassign : Piece .assign "=".toList := piece_of_word (by decide)
  refine ⟨.of_append (htext []) (hname.visible.append _), ?_, nofun,
    fun floor cursor rest _ hrest hat => ?_⟩
  · intro cursor rest _ hat
    rw [htext] at hat
    exact hname.first cursor _ (.cons (by decide) _) hat
  · rw [htext] at hat
    obtain ⟨hkind, hword, hmark⟩ := hat.piece hp (.cons (by decide) _)
    obtain ⟨hequals, -, hvalue⟩ := (at_space.mp hmark).piece hassign (.cons (by decide) _)
    obtain ⟨middle, hmiddle, hreads⟩ :=
      hv.reads .lowest _ rest (by decide) hrest (at_space.mp hvalue)
    have hrank := hrest.2 middle hmiddle
    have hoperand := Reads.operand_assignment hkind hequals hreads
    rw [hword, String.ofList_toList] at hoperand
    exact ⟨middle, hmiddle, .expression_some hoperand (.operators_done (by omega))⟩

end Compound

end Rereads

section Statements

-- The text of a statement is read as the statement, and tells it from what ends a block or goes on
-- with a condition.
structure StmtRereads (stmt : Stmt) : Prop where
  first : ∀ cursor rest, Cursor.At cursor (stmt.text.toList ++ rest) →
    cursor.current.kind ≠ .eof ∧ cursor.current.kind ≠ .closeBrace ∧
      cursor.current.kind ≠ .elseWord
  reads : ∀ cursor rest, Begins (· ≠ .elseWord) rest →
    Cursor.At cursor (stmt.text.toList ++ rest) →
      ∃ middle : Cursor, middle.At rest ∧ Reads statement cursor stmt middle

variable {body : List Stmt} {cursor : Cursor} {rest : List Char}

def spaced (body : List Stmt) : List Char := body.flatMap fun stmt => ' ' :: stmt.text.toList

theorem toList_sequence_cons (stmt : Stmt) (body : List Stmt) :
    ' ' :: (Printer.sequence (stmtTexts (stmt :: body))).toList = spaced (stmt :: body) := by
  rw [Printer.sequence, stmtTexts_eq_map, List.map_cons, toList_intercalate_cons]
  simp [spaced, List.flatMap_map]

theorem at_sequence :
    cursor.At (' ' :: ((Printer.sequence (stmtTexts body)).toList ++ rest)) ↔
      cursor.At (spaced body ++ rest) := by
  cases body with
  | nil => exact at_space
  | cons stmt body => rw [← List.cons_append, toList_sequence_cons]

theorem statements_reread (h : ∀ stmt ∈ body, StmtRereads stmt) {stop : TokenKind}
    (hstop : stop = .eof ∨ stop = .closeBrace) (hend : Begins (· = stop) rest)
    (hat : cursor.At (spaced body ++ rest)) {bound : Nat} (hb : cursor.room ≤ bound) :
    ∃ middle : Cursor, middle.At rest ∧
      Reads (itemsUntil stop statement bound) cursor body middle := by
  induction body generalizing cursor bound with
  | nil => exact ⟨cursor, hat, .itemsUntil_nil (.inr (hend cursor hat))⟩
  | cons stmt body ih =>
      have htext : spaced (stmt :: body) ++ rest =
          ' ' :: (stmt.text.toList ++ (spaced body ++ rest)) := by simp [spaced]
      rw [htext, at_space] at hat
      have hstmt := h stmt List.mem_cons_self
      obtain ⟨heof, hbrace, -⟩ := hstmt.first cursor _ hat
      have helse : Begins (· ≠ .elseWord) (spaced body ++ rest) := by
        intro other hother
        cases body with
        | nil =>
            rw [hend other hother]
            obtain rfl | rfl := hstop <;> decide
        | cons next body =>
            have hnext : spaced (next :: body) ++ rest =
                ' ' :: (next.text.toList ++ (spaced body ++ rest)) := by simp [spaced]
            rw [hnext, at_space] at hother
            exact ((h next (by simp)).first other _ hother).2.2
      obtain ⟨middle, hmiddle, hreads⟩ := hstmt.reads cursor _ helse hat
      have hlt : middle.room < cursor.room := by
        have htakes := statement_takes heof
        rw [Takes, hreads] at htakes
        exact Nat.lt_of_le_of_lt htakes.room_le (cursor.room_advance_lt heof)
      obtain ⟨bound, rfl⟩ : ∃ k, bound = k + 1 := ⟨bound - 1, by omega⟩
      have hbound : middle.room ≤ bound := by omega
      obtain ⟨last, hlast, hmore⟩ :=
        ih (fun stmt hmem => h stmt (List.mem_cons_of_mem _ hmem)) hmiddle hbound
      refine ⟨last, hlast, .itemsUntil_cons ?_ hreads hmore⟩
      rintro (hkind | hkind)
      · exact heof hkind
      · obtain rfl | rfl := hstop
        · exact heof hkind
        · exact hbrace hkind

theorem block_reread (h : ∀ stmt ∈ body, StmtRereads stmt)
    (hat : cursor.At ((Printer.block (stmtTexts body)).toList ++ rest)) {bound : Nat}
    (hb : cursor.room ≤ bound) :
    cursor.current.kind = .openBrace ∧ ∃ middle : Cursor, middle.At rest ∧
      Reads (Parser.blockRest bound statement) cursor.advance body middle := by
  have htext : (Printer.block (stmtTexts body)).toList ++ rest =
      '\x7b' :: ' ' :: ((Printer.sequence (stmtTexts body)).toList ++ ' ' :: '\x7d' :: rest) := by
    simp [Printer.block]
  rw [htext] at hat
  obtain ⟨hopen, hinside⟩ := hat.mark .openBrace (by decide)
  have hend : Begins (· = .closeBrace) (' ' :: '\x7d' :: rest) :=
    fun other hother => ((at_space.mp hother).mark .closeBrace (by decide)).1
  obtain ⟨middle, hmiddle, hreads⟩ := statements_reread h (.inr rfl) hend
    (at_sequence.mp hinside) (cursor.advance_within.room_le.trans hb)
  obtain ⟨hclose, hadvance⟩ := (at_space.mp hmiddle).mark .closeBrace (by decide)
  exact ⟨hopen, middle.advance, hadvance, .blockRest hreads hclose⟩

-- The names of parameters, behind the opening parenthesis.
theorem name_item {token : Token} (h : token.Lexed) (hk : token.kind = .identifier) :
    ItemRereads Parser.identifier Printer.name .closeParen (some token.literal) where
  first := by
    intro cursor rest hrest hat
    rw [(At.piece hat (piece_of_identifier h hk).1 hrest).1]
    decide
  reads := by
    intro cursor rest hrest hat
    obtain ⟨hkind, hword, hadvance⟩ := At.piece hat (piece_of_identifier h hk).1 hrest.1
    have hreads := Reads.identifier hkind
    rw [hword, String.ofList_toList] at hreads
    exact ⟨cursor.advance, hadvance, hreads⟩

variable {names : List (Option String)}

-- Parameters in their parentheses and a block, as they stand behind `fn` and a name.
theorem function_reread
    (hnames : ∀ name ∈ names, ItemRereads Parser.identifier Printer.name .closeParen name)
    (h : ∀ stmt ∈ body, StmtRereads stmt)
    (hat : cursor.At ((Printer.parameters names).toList ++
      ' ' :: ((Printer.block (stmtTexts body)).toList ++ rest)))
    {bound : Nat} (hb : cursor.room ≤ bound) :
    cursor.current.kind = .openParen ∧ ∃ middle last : Cursor, last.At rest ∧
      Reads (Parser.parameters bound) cursor.advance names middle ∧
        Reads (Parser.block bound statement) middle body last := by
  have htext : (Printer.parameters names).toList ++
      ' ' :: ((Printer.block (stmtTexts body)).toList ++ rest) =
        '(' :: ((Printer.commaSeparated (names.map Printer.name)).toList ++ ')' ::
          ' ' :: ((Printer.block (stmtTexts body)).toList ++ rest)) := by
    simp [Printer.parameters]
  rw [htext] at hat
  obtain ⟨hopen, hinside⟩ := hat.mark .openParen (by decide)
  have hadvance := cursor.advance_within.room_le
  have hmem : (')', TokenKind.closeParen) ∈ closers := by decide
  obtain ⟨middle, hmiddle, hparameters⟩ :=
    items_reread Parser.identifier_stays hmem hnames hinside (hadvance.trans hb)
  have hle := (hparameters.within (Parser.parameters_stays bound)).room_le
  have hbound : middle.room ≤ bound := by omega
  obtain ⟨hbrace, last, hlast, hreads⟩ := block_reread h (at_space.mp hmiddle) hbound
  exact ⟨hopen, middle, last, hlast, hparameters, .block hbrace hreads⟩

theorem breaks_parameters (names : List (Option String)) (rest : List Char) :
    Breaks ((Printer.parameters names).toList ++ rest) := by
  simp [Printer.parameters, Breaks, separators]

theorem Rereads.function
    (hnames : ∀ name ∈ names, ItemRereads Parser.identifier Printer.name .closeParen name)
    (h : ∀ stmt ∈ body, StmtRereads stmt) : Rereads (.function names body) := by
  have htext : ∀ rest, (Expr.function names body).text.toList ++ rest =
      "fn".toList ++ ((Printer.parameters names).toList ++
        ' ' :: ((Printer.block (stmtTexts body)).toList ++ rest)) := by
    intro rest
    simp
  have hword : Piece .fnWord "fn".toList := piece_of_word (by decide)
  refine of_operand (.of_append (htext []) ⟨'f', _, rfl, by decide⟩) ?_ ?_
  · intro cursor rest _ hat
    rw [htext] at hat
    obtain ⟨hkind, -, hrest⟩ := hat.piece hword (breaks_parameters _ _)
    rw [hkind]
    exact ⟨rfl, fun _ => (function_reread hnames h hrest (Nat.le_refl _)).1⟩
  · intro cursor rest _ hat
    rw [htext] at hat
    obtain ⟨hkind, -, hrest⟩ := hat.piece hword (breaks_parameters _ _)
    obtain ⟨hopen, middle, last, hlast, hparameters, hreads⟩ :=
      function_reread hnames h hrest cursor.advance_within.room_le
    exact ⟨last, hlast, .operand_function hkind hopen hparameters hreads⟩

end Statements

end Rereading

end Capuchin

import Capuchin.Proofs.Syntax.Spelling

-- The parser comes to an end by itself. Neither the depth of its recursion nor the length of its
-- lists is ever cut off by the bounds that its definition gives them.
namespace Capuchin

namespace Reader

theorem AgreeBelow.trans {room : Nat} {first second third : Reader α}
    (h : AgreeBelow room first second) (hnext : AgreeBelow room second third) :
    AgreeBelow room first third :=
  fun cursor hc => (h cursor hc).trans (hnext cursor hc)

-- Items that take a token each are no more than the tokens they take.
theorem length_itemsUntil_le (stop : TokenKind) {item : Reader α}
    (ht : ∀ cursor : Cursor, cursor.current.kind ≠ .eof → Takes item cursor) (bound : Nat)
    (cursor : Cursor) :
    (itemsUntil stop item bound cursor).value.length +
      (itemsUntil stop item bound cursor).rest.room ≤ cursor.room := by
  induction bound generalizing cursor with
  | zero => simp [itemsUntil]
  | succ bound ih =>
      by_cases hk : cursor.current.kind = .eof ∨ cursor.current.kind = stop
      · rw [itemsUntil_of_stop hk]
        simp
      · have hne : cursor.current.kind ≠ .eof := fun h => hk (.inl h)
        have hlt := Nat.lt_of_le_of_lt (Cursor.Within.room_le (ht cursor hne))
          (Cursor.room_advance_lt hne)
        have hrest := ih (item cursor).rest
        rw [itemsUntil_succ hk]
        simp only [bind_apply, pure_apply, List.length_cons]
        omega

theorem expression_takes (floor : Precedence) {cursor : Cursor} (h : cursor.current.kind ≠ .eof)
    (hsemi : cursor.current.kind ≠ .semiColon) : Takes (expression floor) cursor := by
  have ht := Parser.expression_takes (3 * cursor.room) floor h hsemi
  rw [Takes] at ht ⊢
  exact ht

end Reader

namespace Parser

open Reader

-- With fewer tokens to come than a bound, parts do what the parser does.
structure Parts.Faithful (room : Nat) (parts : Parts) : Prop where
  operators : ∀ floor left,
    AgreeBelow room (parts.operators floor left) (Reader.operators floor left)
  expression : ∀ floor, AgreeBelow room (parts.expression floor) (Reader.expression floor)
  statement : AgreeBelow room parts.statement Reader.statement

theorem raise_faithful {bound depth room : Nat} (hbound : room ≤ bound + 1)
    (hdepth : 3 * room ≤ depth) (bottom : Parts) :
    (Parts.raise (fun _ => bound) bottom depth).Faithful room := by
  have hraised : Unreached (fun _ => bound) bottom room := unreached fun _ _ _ _ => by omega
  constructor
  · intro floor left
    apply (hraised.operators depth (3 * room) floor left (by omega) (by omega)).trans
    exact operators_agrees floor left (by omega)
  · intro floor
    apply (hraised.expression depth (3 * room) floor (by omega) (by omega)).trans
    exact expression_agrees floor (by omega)
  · apply (hraised.statement depth (3 * room) hdepth (by omega)).trans
    exact statement_agrees (by omega)

-- A part of the parser gives a reading of what stands at a cursor, and comes to its end there by
-- itself: what stands below a depth may be anything, and so may the bound on the length of lists,
-- once they are no less than what the tokens to come ask for. A loop or a recursion without an
-- end would show the one or the other.
def Finishes (part : Nat → Parts → Reader α) (cursor : Cursor) (reading : Reading α) : Prop :=
  ∀ bound depth bottom, cursor.room ≤ bound → 3 * cursor.room + 3 ≤ depth →
    part bound (Parts.raise (fun _ => bound) bottom depth) cursor = reading

theorem finishes_of_faithful {part : Nat → Parts → Reader α} {cursor : Cursor} {reader : Reader α}
    (h : ∀ bound parts, cursor.room ≤ bound → parts.Faithful (cursor.room + 1) →
      AgreeBelow (cursor.room + 1) (part bound parts) reader) :
    Finishes part cursor (reader cursor) := by
  intro bound depth bottom hbound hdepth
  have hraised : (Parts.raise (fun _ => bound) bottom depth).Faithful (cursor.room + 1) :=
    raise_faithful (by omega) (by omega) bottom
  exact h bound _ hbound hraised cursor (Nat.lt_succ_self _)

section Finishes

variable (cursor : Cursor)

theorem statements_finish (stop : TokenKind) :
    Finishes (fun bound parts => itemsUntil stop parts.statement bound) cursor
      (itemsUntil stop Reader.statement cursor.room cursor) :=
  finishes_of_faithful fun _ _ hbound hparts =>
    hparts.statement.itemsUntil stop (fun _ _ h => Reader.statement_takes h) (by omega) (by omega)

theorem blockRest_finishes :
    Finishes (fun bound parts => blockRest bound parts.statement) cursor
      (blockRest cursor.room Reader.statement cursor) :=
  finishes_of_faithful fun _ _ hbound hparts =>
    blockRest_agrees hparts.statement Reader.statement_stays
      (fun _ _ h => Reader.statement_takes h) (by omega) (by omega)

theorem parameters_finish :
    Finishes (fun bound _ => parameters bound) cursor (parameters cursor.room cursor) :=
  finishes_of_faithful fun _ _ hbound _ => parameters_agrees (by omega) (by omega)

theorem expressions_finish (close : TokenKind) :
    Finishes (fun bound parts => items bound close (parts.expression .lowest)) cursor
      (items cursor.room close (Reader.expression .lowest) cursor) :=
  finishes_of_faithful fun _ _ hbound hparts =>
    (hparts.expression .lowest).items close (Reader.expression_stays .lowest) (by omega) (by omega)

theorem operators_finish (floor : Precedence) (left : Expr) :
    Finishes (fun _ parts => parts.operators floor left) cursor
      (Reader.operators floor left cursor) :=
  finishes_of_faithful fun _ _ _ hparts => hparts.operators floor left

theorem expression_finishes (floor : Precedence) :
    Finishes (fun _ parts => parts.expression floor) cursor (Reader.expression floor cursor) :=
  finishes_of_faithful fun _ _ _ hparts => hparts.expression floor

theorem statement_finishes :
    Finishes (fun _ parts => parts.statement) cursor (Reader.statement cursor) :=
  finishes_of_faithful fun _ _ _ hparts => hparts.statement

end Finishes

end Parser

open Reader Capuchin.Parser

-- Wherever the parser stands, a statement takes a token unless the end is there, and so does an
-- expression unless the end or a semicolon is there. So all loops and all recursion end, the
-- program reaches to the end of the source, and it has no more statements than there are tokens.
theorem parse_finishes (source : String) :
    (∀ cursor : Cursor, cursor.current.kind ≠ .eof → Takes Reader.statement cursor) ∧
    (∀ (cursor : Cursor) (floor : Precedence), cursor.current.kind ≠ .eof →
      cursor.current.kind ≠ .semiColon → Takes (Reader.expression floor) cursor) ∧
    (∀ cursor : Cursor,
      Finishes (fun bound parts => itemsUntil .eof parts.statement bound) cursor cursor.parse ∧
      Finishes (fun _ parts => parts.statement) cursor (Reader.statement cursor) ∧
      Finishes (fun bound parts => blockRest bound parts.statement) cursor
        (blockRest cursor.room Reader.statement cursor) ∧
      Finishes (fun bound _ => parameters bound) cursor (parameters cursor.room cursor) ∧
      (∀ close, Finishes (fun bound parts => items bound close (parts.expression .lowest)) cursor
        (items cursor.room close (Reader.expression .lowest) cursor)) ∧
      (∀ floor, Finishes (fun _ parts => parts.expression floor) cursor
        (Reader.expression floor cursor)) ∧
      ∀ floor left, Finishes (fun _ parts => parts.operators floor left) cursor
        (Reader.operators floor left cursor)) ∧
    (Cursor.ofSource source).parse.rest.current.kind = .eof ∧
    (parse source).program.length ≤
      ((tokenize source).takeWhile fun token => token.kind ≠ .eof).length := by
  refine ⟨fun _ h => Reader.statement_takes h,
    fun _ floor h hsemi => expression_takes floor h hsemi,
    fun cursor => ⟨?_, statement_finishes cursor, blockRest_finishes cursor,
      parameters_finish cursor, expressions_finish cursor, expression_finishes cursor,
      operators_finish cursor⟩, ?_, ?_⟩
  · rw [Cursor.parse_eq (Nat.le_refl cursor.room)]
    exact statements_finish cursor .eof
  · simp [Cursor.current, Cursor.finish, parse_ahead]
  · have hlength := length_itemsUntil_le .eof (fun _ => Reader.statement_takes)
      (Cursor.ofSource source).room (Cursor.ofSource source)
    have hproper : (tokenize source).takeWhile (fun token => token.kind ≠ .eof) =
        (Cursor.ofSource source).ahead := by
      rw [tokenize, Cursor.toList, List.takeWhile_append_of_pos]
      · simp [Cursor.finish]
      · intro token hmem
        simpa using (Cursor.ofSource_lexed source token hmem).ne_eof
    rw [hproper]
    rw [← Cursor.parse_eq (Nat.le_refl _)] at hlength
    exact Nat.le_trans (Nat.le_add_right _ _) hlength

-- No token of this source begins a statement, and each is taken by one.
theorem parse_finishes_strays :
    (Cursor.ofSource ") ] ,").current.kind ≠ .eof ∧
      (Cursor.ofSource ") ] ,").current.kind ≠ .semiColon ∧
      Takes Reader.statement (Cursor.ofSource ") ] ,") ∧
      Takes (Reader.expression .sum) (Cursor.ofSource ") ] ,") := by
  have hk : (Cursor.ofSource ") ] ,").current.kind = .closeParen := by decide +kernel
  have heof : (Cursor.ofSource ") ] ,").current.kind ≠ .eof := by simp [hk]
  have hsemi : (Cursor.ofSource ") ] ,").current.kind ≠ .semiColon := by simp [hk]
  obtain ⟨hstatement, hexpression, -⟩ := parse_finishes ") ] ,"
  exact ⟨heof, hsemi, hstatement _ heof, hexpression _ .sum heof hsemi⟩

end Capuchin

import Capuchin.Proofs.Syntax.Likeness
import Capuchin.Proofs.Syntax.Locality
import Capuchin.Proofs.Syntax.Spelling

-- Sources one behind the other.
namespace Capuchin

open Reader

namespace Cursor

variable {cursor : Cursor}

-- A program is read statement by statement.

theorem parse_of_eof (h : cursor.current.kind = .eof) : cursor.parse = ⟨[], cursor, []⟩ := by
  rw [parse_eq (Nat.le_refl _), itemsUntil_of_stop (.inl h)]

theorem parse_of_ne_eof (h : cursor.current.kind ≠ .eof) :
    cursor.parse =
      ⟨(statement cursor).value :: (statement cursor).rest.parse.value,
        (statement cursor).rest.parse.rest,
        (statement cursor).diagnostics ++ (statement cursor).rest.parse.diagnostics⟩ := by
  have hlt := Nat.lt_of_le_of_lt (Within.room_le (statement_takes h)) (room_advance_lt h)
  obtain ⟨bound, hbound⟩ : ∃ k, cursor.room = k + 1 := ⟨cursor.room - 1, by omega⟩
  have hrest : (statement cursor).rest.parse =
      itemsUntil .eof statement bound (statement cursor).rest :=
    parse_eq (by omega)
  rw [parse_eq (Nat.le_of_eq hbound), itemsUntil_succ (by simpa using h), hrest]
  simp

theorem parse_onto {later : Cursor} (hlater : later.current.kind ≠ .elseWord)
    (hends : ∀ token ∈ cursor.ahead, token.kind ≠ .eof) (hclean : cursor.parse.diagnostics = []) :
    (cursor.onto later).parse =
      ⟨cursor.parse.value ++ later.parse.value, later.parse.rest, later.parse.diagnostics⟩ := by
  induction hroom : cursor.room using Nat.strong_induction_on generalizing cursor with
  | _ room ih =>
      by_cases h : cursor.current.kind = .eof
      · rw [onto_of_nil later (ahead_eq_nil h hends), parse_of_eof h, List.nil_append]
      · have hc := ahead_ne_nil h
        have hwithin := statement_takes h
        have hlt := Nat.lt_of_le_of_lt (Within.room_le hwithin) (room_advance_lt h)
        rw [parse_of_ne_eof h, List.append_eq_nil_iff] at hclean
        have hfirst : Reads statement cursor (statement cursor).value (statement cursor).rest := by
          rw [Reads, ← hclean.1]
        have hthere : Reads statement (cursor.onto later) (statement cursor).value
            ((statement cursor).rest.onto later) :=
          statement_local hlater cursor _ _ hfirst (.inl trivial)
        have hrest := ih _ (by omega)
          (fun token hmem => hends token ((statement_stays cursor).2.subset hmem)) hclean.2 rfl
        rw [parse_of_ne_eof (by rw [current_onto later hc]; exact h), hthere, hrest,
          parse_of_ne_eof h]
        rfl

end Cursor

def Diagnostic.shift (count : Nat) : Diagnostic → Diagnostic
  | .expectedToken expected found => .expectedToken expected (found.shift count)
  | .expectedExpression found => .expectedExpression (found.shift count)
  | .unexpectedToken found => .unexpectedToken (found.shift count)
  | .unexpectedEnd found => .unexpectedEnd (found.shift count)
  | .invalidLiteral found => .invalidLiteral (found.shift count)

-- Tokens that stand apart by a number of bytes.
def Likeness.shift (count : Nat) : Likeness where
  Holds token other := other = token.shift count
  kind_eq := by
    rintro token _ rfl
    rfl
  literal_eq := by
    rintro token _ rfl
    rfl

theorem Diagnostic.Alike.eq_shift {count : Nat} {first second : Diagnostic}
    (h : first.Alike (.shift count) second) : second = first.shift count := by
  cases h with
  | expectedToken h | expectedExpression h | unexpectedToken h | unexpectedEnd h
  | invalidLiteral h => rw [h]; rfl

namespace Cursor

theorem shift_alike (count : Nat) (cursor : Cursor) :
    cursor.Alike (.shift count) (cursor.shift count) where
  ahead := by
    rw [shift, List.forall₂_map_right_iff, List.forall₂_same]
    exact fun _ _ => rfl
  finish := rfl

theorem parse_shift (count : Nat) (cursor : Cursor) :
    (cursor.shift count).parse.value = cursor.parse.value ∧
      (cursor.shift count).parse.diagnostics =
        cursor.parse.diagnostics.map (Diagnostic.shift count) := by
  obtain ⟨hvalue, -, hdiagnostics⟩ := parse_alike (cursor.shift_alike count)
  refine ⟨hvalue.symm, Eq.symm ?_⟩
  rw [← List.forall₂_eq_eq_eq, List.forall₂_map_left_iff]
  exact hdiagnostics.imp fun _ _ h => h.eq_shift.symm

theorem head?_toList (cursor : Cursor) : cursor.toList.head? = some cursor.current := by
  rw [toList, current, List.head?_append, List.headD_eq_head?_getD]
  cases cursor.ahead <;> rfl

end Cursor

-- A source without objections ends with the last token of a statement.
theorem getLast?_of_clean {source : String} (h : (parse source).diagnostics = []) :
    ∀ token ∈ (Cursor.ofSource source).ahead.getLast?,
      token.kind = .semiColon ∨ token.kind = .closeBrace := by
  intro token hmem
  obtain ⟨-, hnil⟩ | ⟨front, last, hahead, hlast⟩ := (parse_spelled h).ends
  · simp [hnil] at hmem
  · rw [hahead, List.getLast?_concat, Option.mem_some_iff] at hmem
    rwa [← hmem]

theorem parse_append_of_ne {first second : String} (hclean : (parse first).diagnostics = [])
    (helse : (Cursor.ofSource second).current.kind ≠ .elseWord) :
    parse (first ++ second) =
      ⟨(parse first).program ++ (parse second).program,
        (parse second).diagnostics.map (Diagnostic.shift first.utf8ByteSize)⟩ := by
  have hlater : ((Cursor.ofSource second).shift first.utf8ByteSize).current.kind ≠ .elseWord := by
    rwa [← (Likeness.shift _).kind_eq ((Cursor.ofSource second).shift_alike _).current]
  have hends := fun token hmem => (Cursor.ofSource_lexed first token hmem).ne_eof
  have happend := Cursor.parse_onto hlater hends hclean
  obtain ⟨hvalue, hdiagnostics⟩ :=
    Cursor.parse_shift first.utf8ByteSize (Cursor.ofSource second)
  rw [← Cursor.ofSource_append (getLast?_of_clean hclean), hvalue, hdiagnostics] at happend
  rw [parse, happend]
  rfl

-- The statements of a source without objections and those of another one behind it are read
-- apart, unless the second begins with the other branch of a conditional.
theorem parse_append (first second : String) (hclean : (parse first).diagnostics = [])
    (helse : (tokenize second).head?.map Token.kind ≠ some .elseWord) :
    (parse (first ++ second)).program = (parse first).program ++ (parse second).program ∧
      (parse (first ++ second)).diagnostics =
        (parse second).diagnostics.map (Diagnostic.shift first.utf8ByteSize) := by
  have hk : (Cursor.ofSource second).current.kind ≠ .elseWord := by
    intro hk
    exact helse (by rw [tokenize, Cursor.head?_toList, Option.map_some, hk])
  rw [parse_append_of_ne hclean hk]
  exact ⟨rfl, rfl⟩

theorem parse_append_faulty :
    let first := "if (a) \x7b b; \x7d"
    let second := " let = é;"
    (parse first).diagnostics = [] ∧
      (tokenize second).head?.map Token.kind ≠ some .elseWord ∧
      (parse (first ++ second)).program = (parse first).program ++ (parse second).program ∧
        (parse (first ++ second)).diagnostics =
          (parse second).diagnostics.map (Diagnostic.shift first.utf8ByteSize) := by
  intro first second
  have hclean : (parse first).diagnostics = [] := by decide +kernel
  have helse : (tokenize second).head?.map Token.kind ≠ some .elseWord := by decide +kernel
  exact ⟨hclean, helse, parse_append first second hclean helse⟩

section Blanks

variable {blanks source : String} (h : ∀ c ∈ blanks.toList, Text.isBlank c)

include h in
theorem current_blanks :
    (Cursor.ofSource (blanks ++ source)).current.kind = (Cursor.ofSource source).current.kind := by
  rw [Cursor.ofSource_blanks source h]
  exact ((Likeness.shift _).kind_eq ((Cursor.ofSource source).shift_alike _).current).symm

include h in
theorem parse_blanks :
    parse (blanks ++ source) =
      ⟨(parse source).program,
        (parse source).diagnostics.map (Diagnostic.shift blanks.utf8ByteSize)⟩ := by
  obtain ⟨hvalue, hdiagnostics⟩ :=
    Cursor.parse_shift blanks.utf8ByteSize (Cursor.ofSource source)
  rw [parse, Cursor.ofSource_blanks source h, hvalue, hdiagnostics]
  rfl

end Blanks

-- No program begins with the other branch of a conditional.
theorem current_ne_else_of_clean {source : String} (h : (parse source).diagnostics = []) :
    (Cursor.ofSource source).current.kind ≠ .elseWord := by
  intro hk
  have hne : (Cursor.ofSource source).current.kind ≠ .eof := by simp [hk]
  have hclean : (Cursor.ofSource source).parse.diagnostics = [] := h
  rw [Cursor.parse_of_ne_eof hne, List.append_eq_nil_iff] at hclean
  have hstatement : Reads statement (Cursor.ofSource source)
      (statement (Cursor.ofSource source)).value (statement (Cursor.ofSource source)).rest := by
    rw [Reads, ← hclean.1]
  rw [Reads, statement_apply (Nat.le_refl _), ← Reads, Parser.statementWith, Reads.current_bind,
    Reads.following_bind] at hstatement
  simp only [hk] at hstatement
  obtain ⟨_, _, hbefore, -⟩ := hstatement.of_bind
  obtain ⟨_, _, hexpression, -⟩ := hbefore.of_bind
  rw [expression_eq] at hexpression
  obtain ⟨_, _, hoperand, -⟩ := hexpression.of_bind
  rw [Reads, operand_apply (Nat.le_refl _)] at hoperand
  simp [Parser.operandWith, hk, UnaryOp.ofToken?] at hoperand

theorem parse_append_blanks {first blanks second : String}
    (hfirst : (parse first).diagnostics = []) (hblanks : ∀ c ∈ blanks.toList, Text.isBlank c)
    (hsecond : (parse second).diagnostics = []) :
    parse (first ++ blanks ++ second) = ⟨(parse first).program ++ (parse second).program, []⟩ := by
  have hk : (Cursor.ofSource (blanks ++ second)).current.kind ≠ .elseWord := by
    rw [current_blanks hblanks]
    exact current_ne_else_of_clean hsecond
  rw [String.append_assoc, parse_append_of_ne hfirst hk, parse_blanks hblanks, hsecond]
  rfl

end Capuchin

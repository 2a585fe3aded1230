import Capuchin.Proofs.Evaluation.Discipline
import Capuchin.Proofs.Number.Numerals
import Capuchin.Proofs.Syntax.Appending
import Capuchin.Proofs.Token.Scanning
import Mathlib

-- Integers as text: in a source, in a string that `toInt` is called with, and as they are written.
namespace Capuchin

open Eval Reader

section Literals

theorem Parser.literal_apply (token : Token) (value : Option Expr) (cursor : Cursor) :
    literal token value cursor =
      match value with
      | some expr => ⟨expr, cursor, []⟩
      | none => ⟨.missing, cursor, [.invalidLiteral token]⟩ := by
  cases value <;> rfl

-- An integer takes its token, in range or not.
theorem Reader.operand_integer_apply {cursor : Cursor} (hk : cursor.current.kind = .integer) :
    operand cursor =
      match Integer.read? cursor.current.literal with
      | some value => ⟨some (.integer value), cursor.advance, []⟩
      | none => ⟨some .missing, cursor.advance, [.invalidLiteral cursor.current]⟩ := by
  rw [operand_apply (Nat.le_refl _), Parser.operandWith, Reads.current_bind_apply]
  simp only [hk]
  rw [bind_apply, map_apply, advance_apply, Parser.literal_apply]
  cases Integer.read? cursor.current.literal <;> rfl

-- In front of a semicolon it is all there is of a statement.
theorem Reader.statement_integer_apply {cursor : Cursor} (hk : cursor.current.kind = .integer)
    (hlast : cursor.advance.current.kind = .semiColon) :
    statement cursor =
      match Integer.read? cursor.current.literal with
      | some value => ⟨.expression (.integer value), cursor.advance.advance, []⟩
      | none =>
        ⟨.expression .missing, cursor.advance.advance, [.invalidLiteral cursor.current]⟩ := by
  have hend (tree : Expr) : operators .lowest tree cursor.advance = ⟨tree, cursor.advance, []⟩ :=
    operators_of_rank_le (by rw [hlast]; decide)
  have hclose : expect .semiColon cursor.advance = ⟨(), cursor.advance.advance, []⟩ :=
    Reads.expect hlast
  rw [statement_apply (Nat.le_refl _), Parser.statementWith, Reads.current_bind_apply]
  simp only [hk]
  rw [bind_apply, following_apply, Parser.expressionStatement, before, expression_eq,
    Parser.expressionWith]
  simp only [bind_apply, operand_integer_apply hk]
  cases Integer.read? cursor.current.literal <;> simp [hend, hclose]

variable {digits : String} (hne : digits ≠ "") (hdigits : ∀ c ∈ digits.toList, c.isDigit)

include hne hdigits

theorem Cursor.ofSource_digits :
    (ofSource (digits ++ ";")).ahead =
      [⟨.integer, 0, digits⟩, ⟨.semiColon, digits.utf8ByteSize, ";"⟩] := by
  have hchars : digits.toList ≠ [] := String.toList_eq_nil_iff.not.mpr hne
  obtain ⟨⟨first, more, hsplit, hvisible⟩, hlexeme⟩ := Lexer.piece_of_digits hchars hdigits
  have hinteger := hlexeme [';'] (.cons (by decide) [])
  rw [hsplit] at hinteger
  have hlast : Lexer.lexeme (';' :: [] ++ []) = ([';'].length, .semiColon) := by decide +kernel
  have hsource : (digits ++ ";").toList = digits.toList ++ [';'] := String.toList_append
  have htokens : Lexer.tokensFrom 0 0 (first :: more ++ [';']) =
      ⟨.integer, 0, String.ofList (first :: more)⟩ ::
        Lexer.tokensFrom (0 + String.utf8Len (first :: more)) 0 [';'] :=
    Lexer.tokensFrom_lexeme hvisible hinteger
  have hbehind (offset : Nat) : Lexer.tokensFrom offset 0 [';'] = [⟨.semiColon, offset, ";"⟩] :=
    @Lexer.tokensFrom_lexeme offset ';' [] [] .semiColon (by decide) hlast
  rw [← hsplit, hbehind, String.ofList_toList, Nat.zero_add, ← utf8ByteSize_eq] at htokens
  exact (congrArg (Lexer.tokensFrom 0 0) hsource).trans htokens

-- All the digits are one token, however many there are.
theorem parse_digits :
    parse (digits ++ ";") =
      match Integer.read? digits with
      | some value => ⟨[.expression (.integer value)], []⟩
      | none => ⟨[.expression .missing], [.invalidLiteral ⟨.integer, 0, digits⟩]⟩ := by
  have hahead := Cursor.ofSource_digits hne hdigits
  rw [parse]
  generalize Cursor.ofSource (digits ++ ";") = cursor at hahead ⊢
  obtain ⟨tokens, stop⟩ := cursor
  obtain rfl : tokens = _ := hahead
  rw [Cursor.parse_of_ne_eof (by simp [Cursor.current]), Reader.statement_integer_apply rfl rfl]
  simp only [Cursor.current, List.headD_cons]
  cases Integer.read? digits <;>
    simp [Cursor.parse_of_eof, Cursor.current, Cursor.advance, Cursor.finish]

end Literals

section Calls

variable {depth frame : Nat} {machine : Machine} (hlive : frame < machine.environment.depth)

include hlive

-- A function that only gives a result leaves nothing behind, since its frame is released.
theorem callFunction_of_ofExcept {function : Function} {arguments : List Value}
    {result : Except RuntimeError Value}
    (h : ∀ inner, function.invoke (callFunction depth) inner arguments = ofExcept result) :
    callFunction (depth + 1) function arguments frame machine = ofExcept result machine := by
  rw [callFunction]
  refine (inFrame_run_of_onlyChanged hlive ?_).trans ?_
  · rw [h, stateAfter]
    cases result <;> exact .refl _ _
  · rw [h]
    cases result <;> rfl

theorem callFunction_toInt (text : String) :
    callFunction (depth + 1) (.builtin .toInt) [.string text] frame machine =
      match Integer.read? text with
      | some value => .ok (.integer value) machine
      | none => .error (.failed (.conversionFailed text .integer)) machine := by
  have hbody (inner : Nat) :
      Function.invoke (callFunction depth) inner [.string text] (.builtin .toInt) =
        Eval.ofExcept (match Integer.read? text with
          | some value => .ok (.integer value)
          | none => .error (.conversionFailed text .integer)) := by
    change Builtin.converted text .integer ((Integer.read? text).map .integer) = _
    cases Integer.read? text <;> rfl
  rw [callFunction_of_ofExcept hlive hbody]
  cases Integer.read? text <;> rfl

omit hlive

-- `toInt` makes an integer of a text, and that is all it does.
def Machine.Converts (machine : Machine) (depth frame : Nat) (text : String) (value : Int32) :
    Prop :=
  callFunction (depth + 1) (.builtin .toInt) [.string text] frame machine =
    .ok (.integer value) machine

-- `toInt` fails, with an error that has the text as it stands.
def Machine.Refuses (machine : Machine) (depth frame : Nat) (text : String) : Prop :=
  callFunction (depth + 1) (.builtin .toInt) [.string text] frame machine =
    .error (.failed (.conversionFailed text .integer)) machine

variable {text : String}

include hlive

theorem Machine.converts_iff {value : Int32} :
    machine.Converts depth frame text value ↔ Integer.read? text = some value := by
  rw [Converts, callFunction_toInt hlive]
  cases Integer.read? text <;> simp

theorem Machine.refuses_iff : machine.Refuses depth frame text ↔ Integer.read? text = none := by
  rw [Refuses, callFunction_toInt hlive]
  cases Integer.read? text <;> simp

end Calls

-- A numeral is read as its value, by `toInt` and in a source, as long as the value is an integer of
-- the language. All other texts are refused. What is written for an integer is read back as it.
theorem integerTexts_agree (depth : Nat) {frame : Nat} {machine : Machine}
    (hlive : frame < machine.environment.depth) :
    (∀ text value, machine.Converts depth frame text value ↔
      ∃ numeral : Numeral, numeral.text = text ∧ numeral.value = value.toInt) ∧
    (∀ text, machine.Refuses depth frame text ↔
      ¬∃ numeral : Numeral, numeral.text = text ∧
        numeral.value ∈ Set.Icc (-2 ^ 31) (2 ^ 31 - 1)) ∧
    (∀ value, machine.Converts depth frame (Value.integer value).text value) ∧
    ∀ digits, digits ≠ "" → (∀ c ∈ digits.toList, c.isDigit) →
      (∀ value, (parse (digits ++ ";")).program = [.expression (.integer value)] ↔
        machine.Converts depth frame digits value) ∧
      ((parse (digits ++ ";")).diagnostics = [.invalidLiteral ⟨.integer, 0, digits⟩] ↔
        machine.Refuses depth frame digits) := by
  refine ⟨fun text value => ?_, fun text => ?_, fun value => ?_, fun digits hne hdigits => ?_⟩
  · rw [Machine.converts_iff hlive, Integer.read?_eq_some_iff]
  · rw [Machine.refuses_iff hlive, Integer.read?_eq_none_iff]
  · rw [Machine.converts_iff hlive, Value.text, Integer.read?_text]
  · simp only [Machine.converts_iff hlive, Machine.refuses_iff hlive,
      parse_digits hne hdigits]
    cases Integer.read? digits <;> simp

-- The least integer, and an integer that is one too large, with zeros in front.
theorem integerTexts_agree_limits :
    let machine := Machine.fresh []
    let digits := "0002147483648"
    Environment.root < machine.environment.depth ∧
      machine.Converts 0 Environment.root "-2147483648" (-2147483648) ∧
      digits ≠ "" ∧ (∀ c ∈ digits.toList, c.isDigit) ∧
      (parse (digits ++ ";")).diagnostics = [.invalidLiteral ⟨.integer, 0, digits⟩] ∧
      machine.Refuses 0 Environment.root digits := by
  intro machine digits
  have hlive : Environment.root < machine.environment.depth := by decide
  have hne : digits ≠ "" := by decide
  have hdigits : ∀ c ∈ digits.toList, c.isDigit := List.all_eq_true.mp (by decide +kernel)
  have hdiagnostics : (parse (digits ++ ";")).diagnostics =
      [.invalidLiteral ⟨.integer, 0, digits⟩] := by decide +kernel
  obtain ⟨hconverts, -, -, hliterals⟩ := integerTexts_agree 0 hlive
  let least : Numeral := ⟨some .minus, [2, 1, 4, 7, 4, 8, 3, 6, 4, 8], List.cons_ne_nil _ _⟩
  have hleast : least.text = "-2147483648" ∧ least.value = (-2147483648 : Int32).toInt := by
    decide
  exact ⟨hlive, (hconverts _ _).mpr ⟨least, hleast⟩, hne, hdigits, hdiagnostics,
    (hliterals digits hne hdigits).2.mp hdiagnostics⟩

end Capuchin

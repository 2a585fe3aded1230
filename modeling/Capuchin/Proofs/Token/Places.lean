import Capuchin.Proofs.Token.Pieces
import Mathlib

-- Cursors in front of texts, apart from where in a source the tokens start.
namespace Capuchin

-- What counts of a token.
def Token.shape (token : Token) : TokenKind × String := (token.kind, token.literal)

namespace Lexer

def shapes (text : List Char) : List (TokenKind × String) :=
  (tokensFrom 0 0 text).map Token.shape

-- Neither the place of the text nor the characters passed over count.
theorem map_shape_tokensFrom (offset inside : Nat) (text : List Char) :
    (tokensFrom offset inside text).map Token.shape = shapes (text.drop inside) := by
  induction text generalizing offset inside with
  | nil => rw [List.drop_nil, tokensFrom, shapes, tokensFrom]
  | cons c rest ih =>
      cases inside with
      | succ inside =>
          rw [tokensFrom, List.drop_succ_cons]
          exact ih _ _
      | zero =>
          rw [List.drop_zero, shapes]
          by_cases hblank : Text.isBlank c
          · rw [tokensFrom_blank hblank, tokensFrom_blank hblank, ih, ih]
          · have hvisible : Text.isBlank c = false := by simpa using hblank
            rw [tokensFrom_visible hvisible, tokensFrom_visible hvisible, List.map_cons,
              List.map_cons, ih, ih]
            rfl

theorem shapes_blank {c : Char} {rest : List Char} (h : Text.isBlank c) :
    shapes (c :: rest) = shapes rest := by
  rw [shapes, tokensFrom_blank h, map_shape_tokensFrom, List.drop_zero]

theorem shapes_token {c : Char} {word rest : List Char} {kind : TokenKind}
    (h : lexeme (c :: word ++ rest) = ((c :: word).length, kind)) (hc : Text.isBlank c = false) :
    shapes (c :: word ++ rest) = (kind, String.ofList (c :: word)) :: shapes rest := by
  rw [List.cons_append] at h ⊢
  rw [shapes, tokensFrom_visible hc, List.map_cons, map_shape_tokensFrom, h, ← List.cons_append,
    List.take_left, List.length_cons, Nat.add_sub_cancel, List.drop_left]
  rfl

theorem shapes_piece {word rest : List Char} {kind : TokenKind} (hp : Piece kind word)
    (hrest : Breaks rest) : shapes (word ++ rest) = (kind, String.ofList word) :: shapes rest := by
  obtain ⟨⟨c, more, rfl, hvisible⟩, hlexeme⟩ := hp
  exact shapes_token (hlexeme rest hrest) hvisible

-- A symbol of one character, which is a token unless one of `later` stands behind it.
def isSymbol (later : List Char) (c : Char) (kind : TokenKind) : Bool :=
  lexeme [c] == (1, kind) && kind != .illegal && !Text.isBlank c && !c.isDigit &&
    !Pattern.isIdentifierStart c && c != '"' && Pattern.table.all fun rule =>
      rule.1.letters.head? != some c || rule.1.letters.tail.all later.contains

theorem lexeme_symbol {c : Char} {later rest : List Char} {kind : TokenKind}
    (hsymbol : isSymbol later c kind) (hrest : ∀ x ∈ rest.head?, x ∉ later) :
    lexeme (c :: rest) = (1, kind) ∧ Text.isBlank c = false := by
  simp only [isSymbol, Bool.and_eq_true, beq_iff_eq, bne_iff_ne, Bool.not_eq_true',
    List.all_eq_true, Bool.or_eq_true] at hsymbol
  obtain ⟨⟨⟨⟨⟨⟨halone, hk⟩, hvisible⟩, hdigit⟩, hstart⟩, hquote⟩, htable⟩ := hsymbol
  have hstops : Stops [c] rest := by
    refine stops_symbol later (fun rule hmem hhead => ?_) hstart hrest
    obtain hother | htail := htable rule hmem
    · exact absurd hhead hother
    · exact List.all_eq_true.mpr htail
  have hself : lexeme ([c] ++ []) = ([c].length, kind) := halone
  have hfound : lexeme ([c] ++ rest) = ([c].length, kind) :=
    lexeme_exchange (by simp) hstops (by simp [hdigit]) (by simp [hquote]) hself hk
  rw [List.singleton_append] at hfound
  exact ⟨hfound, hvisible⟩

theorem shapes_symbol {c : Char} {later rest : List Char} {kind : TokenKind}
    (hsymbol : isSymbol later c kind) (hrest : ∀ x ∈ rest.head?, x ∉ later) :
    shapes (c :: rest) = (kind, String.ofList [c]) :: shapes rest := by
  obtain ⟨hlexeme, hvisible⟩ := lexeme_symbol hsymbol hrest
  have hplace : lexeme ([c] ++ rest) = ([c].length, kind) := hlexeme
  have hshapes := shapes_token hplace hvisible
  rwa [List.singleton_append] at hshapes

-- The symbols that are a token in front of any text.
def marks : List (Char × TokenKind) :=
  [('(', .openParen), (')', .closeParen), ('\x7b', .openBrace), ('\x7d', .closeBrace),
    ('[', .openBracket), (']', .closeBracket), (',', .comma), (';', .semiColon)]

theorem isSymbol_of_mark {c : Char} {kind : TokenKind} (hmem : (c, kind) ∈ marks) :
    isSymbol [] c kind := by
  have hall : ∀ mark ∈ marks, isSymbol [] mark.1 mark.2 := by decide +kernel
  exact hall (c, kind) hmem

theorem shapes_mark {c : Char} {kind : TokenKind} (hmem : (c, kind) ∈ marks) (rest : List Char) :
    shapes (c :: rest) = (kind, String.ofList [c]) :: shapes rest :=
  shapes_symbol (isSymbol_of_mark hmem) (by simp)

end Lexer

namespace Cursor

open Lexer

-- What is ahead of a cursor is read off a text.
def At (cursor : Cursor) (text : List Char) : Prop :=
  cursor.ahead.map Token.shape = shapes text

section At

variable {cursor : Cursor} {word rest : List Char} {kind : TokenKind}

theorem ofSource_at (source : String) : (ofSource source).At source.toList := rfl

theorem at_space : cursor.At (' ' :: rest) ↔ cursor.At rest := by
  rw [At, At, shapes_blank (by decide)]

theorem At.eof (h : cursor.At []) : cursor.ahead = [] :=
  List.map_eq_nil_iff.mp h

-- The cursor takes a token off the text.
theorem At.take {c : Char} (h : cursor.At (c :: word ++ rest))
    (hlexeme : lexeme (c :: word ++ rest) = ((c :: word).length, kind))
    (hc : Text.isBlank c = false) :
    cursor.current.kind = kind ∧ cursor.current.literal = String.ofList (c :: word) ∧
      cursor.advance.At rest := by
  rw [At, shapes_token hlexeme hc] at h
  obtain ⟨token, more, hahead, hshape, hmore⟩ := List.map_eq_cons_iff.mp h
  rw [Token.shape, Prod.mk.injEq] at hshape
  have hcurrent : cursor.current = token := by rw [current, hahead, List.headD_cons]
  refine ⟨hcurrent ▸ hshape.1, hcurrent ▸ hshape.2, ?_⟩
  rw [At, advance, hahead]
  exact hmore

theorem At.piece (h : cursor.At (word ++ rest)) (hp : Piece kind word) (hb : Breaks rest) :
    cursor.current.kind = kind ∧ cursor.current.literal = String.ofList word ∧
      cursor.advance.At rest := by
  obtain ⟨⟨c, more, rfl, hc⟩, hlexeme⟩ := hp
  exact h.take (hlexeme rest hb) hc

theorem At.symbol {c : Char} {later : List Char} (h : cursor.At (c :: rest))
    (hsymbol : isSymbol later c kind) (hrest : ∀ x ∈ rest.head?, x ∉ later) :
    cursor.current.kind = kind ∧ cursor.advance.At rest := by
  obtain ⟨hfound, hvisible⟩ := lexeme_symbol hsymbol hrest
  have hplace : cursor.At ([c] ++ rest) := h
  obtain ⟨hkind, -, hadvance⟩ := hplace.take hfound hvisible
  exact ⟨hkind, hadvance⟩

theorem At.mark {c : Char} (kind : TokenKind) (h : cursor.At (c :: rest))
    (hmem : (c, kind) ∈ marks) :
    cursor.current.kind = kind ∧ cursor.advance.At rest :=
  h.symbol (isSymbol_of_mark hmem) (by simp)

end At

end Cursor

end Capuchin

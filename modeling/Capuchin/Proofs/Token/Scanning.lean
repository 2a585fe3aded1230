import Capuchin.Proofs.Token.Seams
import Mathlib

-- A source is white space and tokens in turns, and no byte of it is lost.
namespace Capuchin

namespace Lexer

-- The tokens of a text that stands behind `offset` bytes: each is the lexeme at the first
-- character that is not white space.
inductive Scanned : Nat → List Char → List Token → Prop
  | blanks {offset text} (hblank : ∀ c ∈ text, Text.isBlank c) : Scanned offset text []
  | token {offset gap word rest kind tokens} (hgap : ∀ c ∈ gap, Text.isBlank c)
      (hword : ∃ c more, word = c :: more ∧ Text.isBlank c = false)
      (hlexeme : lexeme (word ++ rest) = (word.length, kind))
      (hrest : Scanned (offset + String.utf8Len gap + String.utf8Len word) rest tokens) :
      Scanned offset (gap ++ (word ++ rest))
        ({ kind, start := offset + String.utf8Len gap, literal := String.ofList word } :: tokens)

theorem Scanned.cons_blank {offset : Nat} {c : Char} {text : List Char} {tokens : List Token}
    (hc : Text.isBlank c) (h : Scanned (offset + c.utf8Size) text tokens) :
    Scanned offset (c :: text) tokens := by
  cases h with
  | blanks hblank => exact .blanks (List.forall_mem_cons.mpr ⟨hc, hblank⟩)
  | @token _ gap word rest kind tokens hgap hword hlexeme hrest =>
      have hbytes : offset + c.utf8Size + String.utf8Len gap =
          offset + String.utf8Len (c :: gap) := by
        rw [String.utf8Len_cons]
        omega
      rw [hbytes] at hrest ⊢
      exact .token (List.forall_mem_cons.mpr ⟨hc, hgap⟩) hword hlexeme hrest

theorem tokensFrom_behind (offset : Nat) (word rest : List Char) :
    tokensFrom offset word.length (word ++ rest) =
      tokensFrom (offset + String.utf8Len word) 0 rest := by
  induction word generalizing offset with
  | nil => rfl
  | cons c word ih =>
      rw [List.cons_append, List.length_cons, tokensFrom, ih, String.utf8Len_cons, Nat.add_assoc,
        Nat.add_comm c.utf8Size]

theorem tokensFrom_lexeme {offset : Nat} {c : Char} {word rest : List Char} {kind : TokenKind}
    (hc : Text.isBlank c = false)
    (hlexeme : lexeme (c :: word ++ rest) = ((c :: word).length, kind)) :
    tokensFrom offset 0 (c :: word ++ rest) =
      { kind, start := offset, literal := String.ofList (c :: word) } ::
        tokensFrom (offset + String.utf8Len (c :: word)) 0 rest := by
  rw [List.cons_append] at hlexeme ⊢
  rw [tokensFrom_visible hc, hlexeme, ← List.cons_append, List.take_left, List.length_cons,
    Nat.add_sub_cancel, tokensFrom_behind, String.utf8Len_cons, Nat.add_assoc,
    Nat.add_comm c.utf8Size]

theorem tokensFrom_scanned (offset : Nat) (text : List Char) :
    Scanned offset text (tokensFrom offset 0 text) := by
  induction hlength : text.length using Nat.strongRecOn generalizing offset text with
  | ind length ih =>
      subst hlength
      cases text with
      | nil => exact .blanks (by simp)
      | cons c text =>
          by_cases hblank : Text.isBlank c
          · rw [tokensFrom_blank hblank]
            exact .cons_blank hblank (ih _ (by simp) _ text rfl)
          · have hvisible : Text.isBlank c = false := by simpa using hblank
            obtain ⟨word, rest, kind, rfl, hlexeme⟩ := lexeme_split c text
            rw [← List.cons_append, tokensFrom_lexeme hvisible hlexeme]
            have hshorter : rest.length < (c :: (word ++ rest)).length := by simp
            have hrest := ih _ hshorter (offset + String.utf8Len (c :: word)) rest rfl
            have hgap : ∀ c ∈ ([] : List Char), Text.isBlank c := by simp
            exact .token hgap ⟨c, word, rfl, hvisible⟩ hlexeme hrest

end Lexer

open Lexer

-- The text between two byte offsets of a source.
def between (source : String) (start stop : Nat) : String :=
  String.Pos.Raw.extract source ⟨start⟩ ⟨stop⟩

-- The texts in front of tokens, each from the end of the token before it.
def gaps (source : String) (offset : Nat) : List Token → List String
  | [] => []
  | token :: rest => between source offset token.start :: gaps source token.stop rest

-- What stands behind a beginning of a source is white space and tokens in turns, a token last.
def Tiled : List Char → List Char → List Token → Prop
  | _, text, [] => text = []
  | before, text, token :: rest =>
    ∃ gap behind, text = gap ++ (token.literal.toList ++ behind) ∧ (∀ c ∈ gap, Text.isBlank c) ∧
      token.start = String.utf8Len (before ++ gap) ∧
      Tiled (before ++ gap ++ token.literal.toList) behind rest

-- The byte behind a lexeme, and the byte behind the text that it begins.
theorem utf8Len_behind {before : List Char} {offset : Nat} (h : String.utf8Len before = offset)
    (gap word : List Char) : String.utf8Len (before ++ gap ++ word) =
      offset + String.utf8Len gap + String.utf8Len word := by
  rw [String.utf8Len_append, String.utf8Len_append, h]

theorem utf8Len_whole (offset : Nat) (gap word rest : List Char) :
    offset + String.utf8Len (gap ++ (word ++ rest)) =
      offset + String.utf8Len gap + String.utf8Len word + String.utf8Len rest := by
  rw [String.utf8Len_append, String.utf8Len_append]
  omega

theorem Lexer.Scanned.tiled {before text : List Char} {offset : Nat} {tokens : List Token}
    (h : Scanned offset text tokens) (hbefore : String.utf8Len before = offset) :
    Tiled before text
      (tokens ++ [{ kind := .eof, start := offset + String.utf8Len text, literal := "" }]) := by
  induction h generalizing before with
  | @blanks offset text hblank =>
      exact ⟨text, [], by simp, hblank, by rw [String.utf8Len_append, hbefore], rfl⟩
  | @token offset gap word rest kind tokens hgap hword hlexeme hrest ih =>
      refine ⟨gap, rest, by simp, hgap, by rw [String.utf8Len_append, hbefore], ?_⟩
      rw [String.toList_ofList, utf8Len_whole]
      exact ih (utf8Len_behind hbefore gap word)

theorem Token.stop_eq (token : Token) :
    token.stop = token.start + String.utf8Len token.literal.toList := by
  rw [Token.stop, Token.size, Cursor.utf8ByteSize_eq]

section Tiled

variable {source : String} {before text : List Char} {tokens : List Token}

theorem isValid_of_split (h : source.toList = before ++ text) :
    String.Pos.Raw.IsValid source ⟨String.utf8Len before⟩ := by
  rw [String.Pos.Raw.isValid_iff_exists_append]
  refine ⟨String.ofList before, String.ofList text, ?_, ?_⟩
  · rw [← String.ofList_append, ← h, String.ofList_toList]
  · rw [String.Pos.Raw.ext_iff]
    simp

theorem between_of_split {middle behind : List Char}
    (h : source.toList = before ++ (middle ++ behind)) :
    between source (String.utf8Len before) (String.utf8Len (before ++ middle)) =
      String.ofList middle := by
  have hsource : source = String.ofList (before ++ middle ++ behind) := by
    rw [List.append_assoc, ← h, String.ofList_toList]
  rw [between, hsource, String.utf8Len_append]
  exact String.extract_of_valid before middle behind

-- Each literal is the piece of the source at its place.
theorem Tiled.literals (h : Tiled before text tokens) (hsource : source.toList = before ++ text) :
    ∀ token ∈ tokens, String.Pos.Raw.IsValid source ⟨token.start⟩ ∧
      String.Pos.Raw.IsValid source ⟨token.stop⟩ ∧
      between source token.start token.stop = token.literal := by
  induction tokens generalizing before text with
  | nil => simp
  | cons token rest ih =>
      obtain ⟨gap, behind, rfl, -, hstart, hrest⟩ := h
      have hstop : token.stop = String.utf8Len (before ++ gap ++ token.literal.toList) := by
        rw [Token.stop_eq, hstart, ← String.utf8Len_append]
      have hplace : source.toList = before ++ gap ++ (token.literal.toList ++ behind) := by
        rw [hsource, List.append_assoc]
      have hbehind : source.toList = before ++ gap ++ token.literal.toList ++ behind := by
        rw [hplace, List.append_assoc _ token.literal.toList]
      rw [List.forall_mem_cons]
      refine ⟨⟨?_, ?_, ?_⟩, ih hrest hbehind⟩
      · rw [hstart]
        exact isValid_of_split hplace
      · rw [hstop]
        exact isValid_of_split hbehind
      · rw [hstart, hstop, between_of_split hplace, String.ofList_toList]

theorem Tiled.ordered (h : Tiled before text tokens) :
    (∀ token ∈ tokens, String.utf8Len before ≤ token.start) ∧
      tokens.Pairwise fun first second => first.stop ≤ second.start := by
  induction tokens generalizing before text with
  | nil => simp
  | cons token rest ih =>
      obtain ⟨gap, behind, rfl, -, hstart, hrest⟩ := h
      obtain ⟨hafter, hpairs⟩ := ih hrest
      have hstop : String.utf8Len (before ++ gap ++ token.literal.toList) = token.stop := by
        rw [Token.stop_eq, hstart, ← String.utf8Len_append]
      rw [hstop] at hafter
      have hbefore : String.utf8Len before ≤ token.start := by
        rw [hstart, String.utf8Len_append]
        omega
      have hle : token.start ≤ token.stop := Nat.le_add_right _ _
      refine ⟨List.forall_mem_cons.mpr ⟨hbefore, fun later hmem => ?_⟩,
        List.pairwise_cons.mpr ⟨hafter, hpairs⟩⟩
      have hlater := hafter later hmem
      omega

theorem Tiled.gaps_cons {token : Token} {rest : List Token} {gap behind : List Char}
    (hsource : source.toList = before ++ (gap ++ (token.literal.toList ++ behind)))
    (hstart : token.start = String.utf8Len (before ++ gap)) :
    gaps source (String.utf8Len before) (token :: rest) = String.ofList gap ::
      gaps source (String.utf8Len (before ++ gap ++ token.literal.toList)) rest := by
  rw [gaps, Token.stop_eq, hstart, between_of_split hsource, ← String.utf8Len_append]

theorem Tiled.blanks (h : Tiled before text tokens) (hsource : source.toList = before ++ text) :
    ∀ gap ∈ gaps source (String.utf8Len before) tokens, ∀ c ∈ gap.toList, Text.isBlank c := by
  induction tokens generalizing before text with
  | nil => simp [gaps]
  | cons token rest ih =>
      obtain ⟨gap, behind, rfl, hgap, hstart, hrest⟩ := h
      rw [gaps_cons hsource hstart, List.forall_mem_cons, String.toList_ofList]
      exact ⟨hgap, ih hrest (by simp [hsource])⟩

-- The gaps and the literals in turns are the source.
theorem Tiled.join (h : Tiled before text tokens) (hsource : source.toList = before ++ text) :
    String.join (List.zipWith (fun gap token => gap ++ token.literal)
      (gaps source (String.utf8Len before) tokens) tokens) = String.ofList text := by
  induction tokens generalizing before text with
  | nil =>
      obtain rfl : text = [] := h
      rfl
  | cons token rest ih =>
      obtain ⟨gap, behind, rfl, hgap, hstart, hrest⟩ := h
      rw [gaps_cons hsource hstart, List.zipWith_cons_cons, String.join_cons,
        ih hrest (by simp [hsource])]
      simp [String.append_assoc]

end Tiled

-- A token that is read off takes a character, and none is the end.
theorem Lexer.Scanned.proper {offset : Nat} {text : List Char} {tokens : List Token}
    (h : Scanned offset text tokens) :
    ∀ token ∈ tokens, token.kind ≠ .eof ∧ token.literal ≠ "" := by
  induction h with
  | blanks hblank => simp
  | @token offset gap word rest kind tokens hgap hword hlexeme hrest ih =>
      have hproper : kind ≠ .eof := by simpa [hlexeme] using lexeme_ne_eof (word ++ rest)
      obtain ⟨c, more, rfl, -⟩ := hword
      exact List.forall_mem_cons.mpr ⟨⟨hproper, by simp⟩, ih⟩

namespace Cursor

-- Once only the end is left, it is read for ever.
theorem read_finish (stop count : Nat) :
    read count { ahead := [], stop } = List.replicate count (finish { ahead := [], stop }) := by
  induction count with
  | zero => rfl
  | succ count ih => exact congrArg (List.cons _) ih

theorem read_toList (cursor : Cursor) (count : Nat) :
    read (cursor.toList.length + count) cursor =
      cursor.toList ++ List.replicate count cursor.finish := by
  obtain ⟨ahead, stop⟩ := cursor
  induction ahead with
  | nil =>
      change read (1 + count) _ = [_] ++ _
      rw [read_finish, List.replicate_add]
      rfl
  | cons token rest ih =>
      have hlength : (toList { ahead := token :: rest, stop }).length + count =
          (toList { ahead := rest, stop }).length + count + 1 := by
        simp only [toList, List.length_append, List.length_cons]
        omega
      rw [hlength, read]
      exact congrArg (List.cons token) ih

theorem ofSource_scanned (source : String) :
    Scanned 0 source.toList (ofSource source).ahead := tokensFrom_scanned 0 source.toList

end Cursor

-- The empty token behind the last byte of a source.
def endToken (source : String) : Token :=
  { kind := .eof, start := source.utf8ByteSize, literal := "" }

-- The tokens of a source are pieces of it in their order, between them is white space, and behind
-- the last of them the end is read again and again.
theorem tokenize_tiles (source : String) :
    (∃ proper, tokenize source = proper ++ [endToken source] ∧
      ∀ token ∈ proper, token.kind ≠ .eof ∧ token.literal ≠ "") ∧
    (∀ token ∈ tokenize source, String.Pos.Raw.IsValid source ⟨token.start⟩ ∧
      String.Pos.Raw.IsValid source ⟨token.stop⟩ ∧
      between source token.start token.stop = token.literal) ∧
    ((tokenize source).Pairwise fun first second => first.stop ≤ second.start) ∧
    (∀ gap ∈ gaps source 0 (tokenize source), ∀ c ∈ gap.toList, Text.isBlank c) ∧
    String.join (List.zipWith (fun gap token => gap ++ token.literal)
      (gaps source 0 (tokenize source)) (tokenize source)) = source ∧
    ∀ count, (Cursor.ofSource source).read ((tokenize source).length + count) =
      tokenize source ++ List.replicate count (endToken source) := by
  have hscanned := Cursor.ofSource_scanned source
  have htiled : Tiled [] source.toList (tokenize source) := by
    have h := hscanned.tiled String.utf8Len_nil
    rwa [Nat.zero_add, ← Cursor.utf8ByteSize_eq] at h
  refine ⟨⟨_, rfl, hscanned.proper⟩, htiled.literals rfl, htiled.ordered.2, htiled.blanks rfl,
    ?_, ?_⟩
  · rw [← String.utf8Len_nil, htiled.join rfl, String.ofList_toList]
  · exact (Cursor.ofSource source).read_toList

end Capuchin

import Capuchin.Proofs.Token.Seams
import Mathlib

-- Texts whose tokens do not run into what breaks behind them.
namespace Capuchin

namespace Pattern

variable (text more : List Char)

-- A text that goes on begins with no less of a shape.

theorem length_takeWhile_mono (p : Char → Bool) :
    (text.takeWhile p).length ≤ ((text ++ more).takeWhile p).length := by
  by_cases h : (text.takeWhile p).length < text.length
  · rw [takeWhile_within h]
  · have hall : text.takeWhile p = text :=
      (List.takeWhile_prefix p).eq_of_length_le (Nat.not_lt.mp h)
    rw [hall, List.takeWhile_append_of_pos (List.takeWhile_eq_self_iff.mp hall),
      List.length_append]
    exact Nat.le_add_right _ _

theorem digitCount_mono : digitCount text ≤ digitCount (text ++ more) :=
  length_takeWhile_mono text more Char.isDigit

theorem quotedLength_pos (c : Char) (rest : List Char) : 0 < quotedLength (c :: rest) := by
  unfold quotedLength
  split <;> simp_all

theorem quotedLength_mono : quotedLength text ≤ quotedLength (text ++ more) := by
  induction text using quotedLength.induct with
  | case1 => exact Nat.zero_le _
  | case2 => exact Nat.le_refl _
  | case3 rest ih => exact Nat.add_le_add_right ih 2
  | case4 rest hrest =>
      rw [quotedLength.eq_4 _ hrest]
      exact quotedLength_pos _ _
  | case5 c rest hquote _ hslash ih =>
      have hnot : ∀ behind tail, c = '\\' → behind = '"' :: tail → False :=
        fun _ _ heq => absurd heq hslash
      rw [List.cons_append, quotedLength.eq_5 _ _ hquote (hnot _) hslash,
        quotedLength.eq_5 _ _ hquote (hnot _) hslash]
      exact Nat.succ_le_succ ih

theorem longest_float_mono : longest .float text ≤ longest .float (text ++ more) := by
  by_cases hpos : longest .float text = 0
  · omega
  · obtain ⟨rest, htext, hne⟩ := pointed_of_longest_float (Nat.pos_of_ne_zero hpos)
    have hdigits : ∀ c ∈ text.takeWhile Char.isDigit, c.isDigit := fun c hc =>
      List.mem_takeWhile_imp hc
    generalize text.takeWhile Char.isDigit = whole at htext hne hdigits
    subst htext
    rw [List.append_assoc, List.cons_append, longest_float_pointed hne hdigits,
      longest_float_pointed hne hdigits]
    exact Nat.add_le_add_left (digitCount_mono _ more) _

theorem longest_mono (pattern : Pattern) :
    pattern.longest text ≤ pattern.longest (text ++ more) := by
  cases pattern with
  | word word =>
      simp only [longest, List.isPrefixOf_iff_prefix]
      split
      · rename_i h
        rw [if_pos (h.trans (List.prefix_append text more))]
      · exact Nat.zero_le _
  | integer => exact digitCount_mono text more
  | float => exact longest_float_mono text more
  | string =>
      obtain _ | ⟨c, rest⟩ := text
      · exact Nat.zero_le _
      · by_cases hquote : c = '"'
        · subst hquote
          exact Nat.succ_le_succ (quotedLength_mono rest more)
        · rw [longest_string_of_head hquote]
          exact Nat.zero_le _
  | identifier =>
      obtain _ | ⟨c, rest⟩ := text
      · exact Nat.zero_le _
      · simp only [List.cons_append, longest]
        split
        · exact Nat.succ_le_succ (length_takeWhile_mono rest more _)
        · exact Nat.le_refl _

theorem best_mono : (best text table).1 ≤ (best (text ++ more) table).1 := by
  obtain hnone | ⟨rule, hmem, hrule, -⟩ := best_cases text table
  · rw [hnone]
    exact Nat.zero_le _
  · rw [hrule]
    exact (longest_mono text more rule.1).trans (longest_le_best _ hmem)

end Pattern

namespace Lexer

open Pattern

variable {text : List Char}

theorem lexeme_mono (text more : List Char) : (lexeme text).1 ≤ (lexeme (text ++ more)).1 := by
  have hle := best_mono text more
  rw [lexeme_fst, lexeme_fst]
  omega

-- The tokens of a text do not run into what breaks behind it.
def Sealed (text : List Char) : Prop :=
  ∀ rest, Breaks rest → shapes (text ++ rest) = shapes text ++ shapes rest

theorem shapes_ne_nil {c : Char} (hmem : c ∈ text) (hc : Text.isBlank c = false) :
    shapes text ≠ [] := by
  induction text with
  | nil => simp at hmem
  | cons first rest ih =>
      by_cases hblank : Text.isBlank first
      · rw [shapes_blank hblank]
        obtain rfl | hmem := List.mem_cons.mp hmem
        · simp [hblank] at hc
        · exact ih hmem
      · rw [shapes, tokensFrom_visible (by simpa using hblank)]
        simp

-- The first token of a text that goes on with something that is no part of it.
theorem sealed_cons {c : Char} {word rest : List Char} {kind : TokenKind}
    (hc : Text.isBlank c = false) (hp : Piece kind (c :: word))
    (h : ∀ more, rest ≠ [] → lexeme (c :: word ++ (rest ++ more)) = ((c :: word).length, kind))
    (hrest : Sealed rest) : Sealed (c :: word ++ rest) := by
  have hshapes : ∀ more, Breaks more →
      shapes (c :: word ++ (rest ++ more)) = (kind, String.ofList (c :: word)) ::
        (shapes rest ++ shapes more) := by
    intro more hmore
    rw [← hrest more hmore]
    by_cases hnil : rest = []
    · subst hnil
      exact shapes_piece hp hmore
    · exact shapes_token (h more hnil) hc
  intro more hmore
  have hself := hshapes [] Breaks.nil
  rw [List.append_nil] at hself
  rw [List.append_assoc, hshapes more hmore, hself]
  simp [shapes, tokensFrom]

-- What a token in front of a semicolon is, it is in front of all that breaks, unless the semicolon
-- is a part of it.
theorem lexeme_of_semiColon {c : Char} {word rest more : List Char} {kind : TokenKind}
    (h : lexeme (c :: word ++ (rest ++ [';'])) = ((c :: word).length, kind)) (hne : rest ≠ []) :
    lexeme (c :: word ++ (rest ++ more)) = ((c :: word).length, kind) := by
  have hmono := lexeme_mono (c :: word ++ rest) [';']
  have hpos := List.length_pos_iff.mpr hne
  rw [List.append_assoc, h] at hmono
  have hlt : (lexeme (c :: word ++ rest)).1 < (c :: word ++ rest).length := by
    rw [List.length_append]
    omega
  rw [← List.append_assoc, lexeme_within hlt] at h ⊢
  exact h

-- With a semicolon behind it, a text without a token that is cut off is sealed.
theorem sealed_of_semiColon
    (hpieces : ∀ shape ∈ shapes (text ++ [';']), Piece shape.1 shape.2.toList)
    (hlast : ∀ shape ∈ (shapes (text ++ [';'])).getLast?, shape.2.length = 1) : Sealed text := by
  induction hlength : text.length using Nat.strongRecOn generalizing text with
  | ind length ih =>
      subst hlength
      cases text with
      | nil => exact fun rest _ => rfl
      | cons c text =>
          by_cases hblank : Text.isBlank c
          · rw [List.cons_append, shapes_blank hblank] at hpieces hlast
            intro rest hrest
            rw [List.cons_append, shapes_blank hblank, shapes_blank hblank,
              ih _ (Nat.lt_succ_self _) hpieces hlast rfl rest hrest]
          · have hvisible : Text.isBlank c = false := by simpa using hblank
            obtain ⟨word, rest, kind, hsplit, hlexeme⟩ := lexeme_split c (text ++ [';'])
            rw [List.cons_append, hsplit, ← List.cons_append, shapes_token hlexeme hvisible]
              at hpieces hlast
            rw [List.forall_mem_cons, String.toList_ofList] at hpieces
            obtain rfl | ⟨front, last, rfl⟩ := List.eq_nil_or_concat' rest
            · -- The semicolon belongs to the last token.
              have hword := congrArg List.length hsplit
              have hone : (String.ofList (c :: word)).length = 1 := hlast _ rfl
              rw [List.append_nil, List.length_append] at hword
              rw [String.length_ofList, List.length_cons] at hone
              simp only [List.length_cons] at hword
              omega
            · rw [← List.append_assoc] at hsplit
              obtain ⟨rfl, hsemi⟩ := List.append_inj' hsplit rfl
              obtain rfl : ';' = last := by simpa using hsemi
              have hne : shapes (front ++ [';']) ≠ [] :=
                shapes_ne_nil (List.mem_append_right _ List.mem_cons_self) (by decide)
              obtain ⟨shape, more, hmore⟩ := List.exists_cons_of_ne_nil hne
              have hfront : Sealed front := by
                refine ih front.length (by simp) hpieces.2 ?_ rfl
                rwa [hmore, List.getLast?_cons_cons, ← hmore] at hlast
              exact sealed_cons hvisible hpieces.1
                (fun more hne => lexeme_of_semiColon hlexeme hne) hfront

end Lexer

end Capuchin

import Capuchin.Syntax.Operator

namespace Capuchin

-- A kind that stands for no operator is none of the operators' kinds.

theorem BinaryOp.kind_ne {kind : TokenKind} {op : BinaryOp} (h : ofToken? kind = some op)
    (other : TokenKind) (ho : ofToken? other = none) : kind ≠ other := by
  rintro rfl
  simp [ho] at h

theorem UnaryOp.kind_ne {kind : TokenKind} {op : UnaryOp} (h : ofToken? kind = some op)
    (other : TokenKind) (ho : ofToken? other = none) : kind ≠ other := by
  rintro rfl
  simp [ho] at h

namespace Grammar

-- Whether the last primary of an expression is there. An expression that is cut off has nothing
-- behind its last operator, or no token at all.
inductive Ending where
  | whole
  | cut
  deriving DecidableEq, Repr

inductive Nonterminal where
  | program
  | statements
  | statement
  | block
  | name
  | expression (ending : Ending)
  | operand (ending : Ending)
  | primary
  | postfixes
  -- Items between commas, and items that follow others.
  | separated (item : Nonterminal)
  | further (item : Nonterminal)
  deriving DecidableEq, Repr

-- The sequences of token kinds that the language has for each of its phrases.
inductive Derives : Nonterminal → List TokenKind → Prop where
  | program : Derives .statements w → Derives .program (w ++ [.eof])
  | noStatements : Derives .statements []
  | statements : Derives .statement u → Derives .statements v → Derives .statements (u ++ v)
  -- A binding needs something behind its `=`, even if it is cut off.
  | letStatement : Derives (.expression ending) w → w ≠ [] →
      Derives .statement (.letWord :: .identifier :: .assign :: w ++ [.semiColon])
  | returnStatement : Derives (.expression ending) w →
      Derives .statement (.returnWord :: w ++ [.semiColon])
  | ifThen : Derives (.expression .whole) w → Derives .block u →
      Derives .statement (.ifWord :: .openParen :: w ++ .closeParen :: u)
  | ifElse : Derives (.expression .whole) w → Derives .block u → Derives .block v →
      Derives .statement (.ifWord :: .openParen :: w ++ .closeParen :: (u ++ .elseWord :: v))
  | whileLoop : Derives (.expression .whole) w → Derives .block u →
      Derives .statement (.whileWord :: .openParen :: w ++ .closeParen :: u)
  | blockStatement : Derives .block w → Derives .statement w
  | definition : Derives (.separated .name) w → Derives .block u →
      Derives .statement (.fnWord :: .identifier :: .openParen :: w ++ .closeParen :: u)
  | expressionStatement : Derives (.expression ending) w →
      Derives .statement (w ++ [.semiColon])
  | block : Derives .statements w → Derives .block (.openBrace :: w ++ [.closeBrace])
  | name : Derives .name [.identifier]
  | noItems : Derives (.separated item) []
  | separated : Derives item u → Derives (.further item) v → Derives (.separated item) (u ++ v)
  | noFurther : Derives (.further item) []
  | further : Derives item u → Derives (.further item) v →
      Derives (.further item) (.comma :: u ++ v)
  | single : Derives (.operand ending) w → Derives (.expression ending) w
  | binary : Derives (.operand .whole) u → BinaryOp.ofToken? kind = some op →
      Derives (.expression ending) v → Derives (.expression ending) (u ++ kind :: v)
  | unary : UnaryOp.ofToken? kind = some op → Derives (.operand ending) w →
      Derives (.operand ending) (kind :: w)
  | primary : Derives .primary u → Derives .postfixes v → Derives (.operand .whole) (u ++ v)
  | absent : Derives (.operand .cut) []
  | cutAssignment : Derives (.expression .cut) w →
      Derives (.operand .cut) (.identifier :: .assign :: w)
  | noPostfix : Derives .postfixes []
  | call : Derives (.separated (.expression .whole)) u → Derives .postfixes v →
      Derives .postfixes (.openParen :: u ++ .closeParen :: v)
  | index : Derives (.expression .whole) u → Derives .postfixes v →
      Derives .postfixes (.openBracket :: u ++ .closeBracket :: v)
  | integer : Derives .primary [.integer]
  | float : Derives .primary [.float]
  | string : Derives .primary [.string]
  | trueWord : Derives .primary [.trueWord]
  | falseWord : Derives .primary [.falseWord]
  | identifier : Derives .primary [.identifier]
  | assignment : Derives (.expression .whole) w →
      Derives .primary (.identifier :: .assign :: w)
  | grouped : Derives (.expression .whole) w →
      Derives .primary (.openParen :: w ++ [.closeParen])
  | array : Derives (.separated (.expression .whole)) w →
      Derives .primary (.openBracket :: w ++ [.closeBracket])
  | function : Derives (.separated .name) w → Derives .block u →
      Derives .primary (.fnWord :: .openParen :: w ++ .closeParen :: u)

namespace Derives

theorem postfixes_append (hu : Derives .postfixes u) (hv : Derives .postfixes v) :
    Derives .postfixes (u ++ v) := by
  match hu with
  | .noPostfix => exact hv
  | .call hitems hrest =>
      have happend := Derives.call hitems (postfixes_append hrest hv)
      simpa using happend
  | .index hposition hrest =>
      have happend := Derives.index hposition (postfixes_append hrest hv)
      simpa using happend
termination_by u.length
decreasing_by all_goals (simp only [List.length_append, List.length_cons]; omega)

-- What stands behind an operand goes to its primary.
theorem operand_append (hu : Derives (.operand .whole) u) (hv : Derives .postfixes v) :
    Derives (.operand .whole) (u ++ v) := by
  match hu with
  | .unary hop hw => exact .unary hop (operand_append hw hv)
  | .primary hp hrest =>
      rw [List.append_assoc]
      exact .primary hp (hrest.postfixes_append hv)

theorem expression_append (hu : Derives (.expression .whole) u) (hv : Derives .postfixes v) :
    Derives (.expression .whole) (u ++ v) := by
  match hu with
  | .single hw => exact .single (hw.operand_append hv)
  | .binary hleft hop hright =>
      have happend := Derives.binary hleft hop (expression_append hright hv)
      simpa using happend
termination_by u.length
decreasing_by simp only [List.length_append, List.length_cons]; omega

theorem expression_unary (hop : UnaryOp.ofToken? kind = some op)
    (h : Derives (.expression ending) w) : Derives (.expression ending) (kind :: w) := by
  match h with
  | .single hw => exact .single (.unary hop hw)
  | .binary hleft hbinary hright => exact .binary (.unary hop hleft) hbinary hright

-- The operators between operands may be grouped at will.
theorem expression_binary (hu : Derives (.expression .whole) u)
    (hop : BinaryOp.ofToken? kind = some op) (hv : Derives (.expression ending) v) :
    Derives (.expression ending) (u ++ kind :: v) := by
  match hu with
  | .single hw => exact .binary hw hop hv
  | .binary hleft hfirst hright =>
      have happend := Derives.binary hleft hfirst (expression_binary hright hop hv)
      simpa using happend
termination_by u.length
decreasing_by simp only [List.length_append, List.length_cons]; omega

theorem expression_primary (h : Derives .primary w) : Derives (.expression .whole) w := by
  have hw := Derives.primary h .noPostfix
  rw [List.append_nil] at hw
  exact .single hw

end Derives

end Grammar

end Capuchin

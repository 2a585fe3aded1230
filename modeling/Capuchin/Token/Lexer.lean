import Capuchin.Text.Blank
import Capuchin.Token.Pattern

namespace Capuchin

namespace Lexer

-- The token at the beginning of a text that does not start with white space: the length of its
-- literal and its kind. A text that starts no token gives one illegal character. A float may
-- not run into a second point; such a number is illegal as a whole.
def lexeme (text : List Char) : Nat × TokenKind :=
  match Pattern.best text Pattern.table with
  | (0, _) => (1, .illegal)
  | (length, .float) =>
    (length, if (text.drop length).head? = some '.' then .illegal else .float)
  | found => found

-- The tokens of a text that starts at byte `offset`. The first `inside` characters belong to a
-- token already listed and are passed over.
def tokensFrom (offset : Nat) : Nat → List Char → List Token
  | _, [] => []
  | inside + 1, c :: rest => tokensFrom (offset + c.utf8Size) inside rest
  | 0, c :: rest =>
    if Text.isBlank c then tokensFrom (offset + c.utf8Size) 0 rest
    else
      let (length, kind) := lexeme (c :: rest)
      { kind, start := offset, literal := String.ofList ((c :: rest).take length) } ::
        tokensFrom (offset + c.utf8Size) (length - 1) rest

end Lexer

-- The tokens of a source text, ready to be read.
def Cursor.ofSource (source : String) : Cursor where
  ahead := Lexer.tokensFrom 0 0 source.toList
  stop := source.utf8ByteSize

-- All tokens of a source text. The last one, and no other, is `eof`.
def tokenize (source : String) : List Token := (Cursor.ofSource source).toList

end Capuchin

namespace Capuchin

-- What a piece of source text is. `illegal` is text that starts no token, `eof` the end.
inductive TokenKind where
  | integer | float | string
  | plus | minus | asterisk | slash | assign | ampersand | pipe | doubleAsterisk
  | greaterThan | lessThan | bang | greaterThanEquals | lessThanEquals | equals | notEquals
  | and | or
  | letWord | ifWord | elseWord | trueWord | falseWord | whileWord | fnWord | returnWord
  | openParen | closeParen | openBrace | closeBrace | openBracket | closeBracket
  | comma | colon | semiColon | arrow
  | illegal | identifier | eof
  deriving DecidableEq, Repr, Inhabited

namespace TokenKind

-- The name under which diagnostics mention a kind.
def name : TokenKind → String
  | integer => "Integer"
  | float => "Float"
  | string => "String"
  | plus => "Plus"
  | minus => "Minus"
  | asterisk => "Asterisk"
  | slash => "Slash"
  | assign => "Assign"
  | ampersand => "Ampersand"
  | pipe => "Pipe"
  | doubleAsterisk => "DoubleAsterisk"
  | greaterThan => "GreaterThan"
  | lessThan => "LessThan"
  | bang => "Bang"
  | greaterThanEquals => "GreaterThanEquals"
  | lessThanEquals => "LessThanEquals"
  | equals => "Equals"
  | notEquals => "NotEquals"
  | and => "And"
  | or => "Or"
  | letWord => "Let"
  | ifWord => "If"
  | elseWord => "Else"
  | trueWord => "True"
  | falseWord => "False"
  | whileWord => "While"
  | fnWord => "Function"
  | returnWord => "Return"
  | openParen => "OpenParen"
  | closeParen => "CloseParen"
  | openBrace => "OpenBrace"
  | closeBrace => "CloseBrace"
  | openBracket => "OpenBracket"
  | closeBracket => "CloseBracket"
  | comma => "Comma"
  | colon => "Colon"
  | semiColon => "SemiColon"
  | arrow => "Arrow"
  | illegal => "Illegal"
  | identifier => "Identifier"
  | eof => "Eof"

end TokenKind

-- A piece of source text: its kind, the byte offset at which it starts, and the text itself.
structure Token where
  kind : TokenKind
  start : Nat
  literal : String
  deriving DecidableEq, Repr, Inhabited

namespace Token

-- How many bytes the token takes.
def size (token : Token) : Nat := token.literal.utf8ByteSize

-- The byte offset just behind the token.
def stop (token : Token) : Nat := token.start + token.size

def describe (token : Token) : String :=
  token.kind.name ++ " at start: " ++ toString token.start ++ " end: " ++ toString token.stop ++
    " literal: " ++ token.literal

end Token

-- What is left to read of a text that ends at byte `stop`.
structure Cursor where
  ahead : List Token
  stop : Nat
  deriving DecidableEq, Repr, Inhabited

namespace Cursor

-- The token behind all others, which is never used up.
def finish (cursor : Cursor) : Token := { kind := .eof, start := cursor.stop, literal := "" }

def current (cursor : Cursor) : Token := cursor.ahead.headD cursor.finish

def advance (cursor : Cursor) : Cursor := { cursor with ahead := cursor.ahead.tail }

-- The token behind the current one.
def following (cursor : Cursor) : Token := cursor.advance.current

-- The next `count` tokens. Past the end every further one is `finish`.
def read : Nat → Cursor → List Token
  | 0, _ => []
  | count + 1, cursor => cursor.current :: read count cursor.advance

-- All tokens, `finish` once and last.
def toList (cursor : Cursor) : List Token := cursor.ahead ++ [cursor.finish]

end Cursor

end Capuchin

import Capuchin.Token.Basic

namespace Capuchin

-- The shapes of token text. `word` is one fixed text, the others are classes.
inductive Pattern where
  | word (text : String)
  | integer
  | float
  | string
  | identifier
  deriving DecidableEq, Repr

namespace Pattern

def isIdentifierStart (c : Char) : Bool := c.isAlpha || c = '_' || c = '$'

def isIdentifierPart (c : Char) : Bool := isIdentifierStart c || c.isDigit

def digitCount (text : List Char) : Nat := (text.takeWhile Char.isDigit).length

-- Behind an opening quote: the characters up to and with the one that ends the literal.
-- A backslash in front of a quote takes the quote along. Any other backslash ends the literal,
-- as a bare quote does, and so does the end of the text.
def quotedLength : List Char → Nat
  | [] => 0
  | '"' :: _ => 1
  | '\\' :: '"' :: rest => quotedLength rest + 2
  | '\\' :: _ => 1
  | _ :: rest => quotedLength rest + 1

-- The length of the longest non-empty beginning of `text` that has the shape, or zero.
def longest : Pattern → List Char → Nat
  | .word w, text => if w.toList.isPrefixOf text then w.toList.length else 0
  | .integer, text => digitCount text
  | .float, text =>
    match digitCount text, text.drop (digitCount text) with
    | 0, _ => 0
    | whole, '.' :: rest => whole + 1 + digitCount rest
    | _, _ => 0
  | .string, '"' :: rest => quotedLength rest + 1
  | .string, _ => 0
  | .identifier, c :: rest =>
    if isIdentifierStart c then (rest.takeWhile isIdentifierPart).length + 1 else 0
  | .identifier, [] => 0

-- The shapes of the language with the kinds they stand for. Where two match equally long
-- texts, the earlier one counts, so that keywords win over identifiers.
def table : List (Pattern × TokenKind) :=
  [(.word "+", .plus), (.word "-", .minus), (.word "*", .asterisk), (.word "/", .slash),
    (.word "=", .assign), (.word "&", .ampersand), (.word "|", .pipe),
    (.word "**", .doubleAsterisk), (.word ">", .greaterThan), (.word "<", .lessThan),
    (.word "!", .bang), (.word ">=", .greaterThanEquals), (.word "<=", .lessThanEquals),
    (.word "==", .equals), (.word "!=", .notEquals), (.word "&&", .and), (.word "||", .or),
    (.word "let", .letWord), (.word "if", .ifWord), (.word "else", .elseWord),
    (.word "true", .trueWord), (.word "false", .falseWord), (.word "while", .whileWord),
    (.word "fn", .fnWord), (.word "return", .returnWord),
    (.word "(", .openParen), (.word ")", .closeParen),
    (.word "\x7b", .openBrace), (.word "\x7d", .closeBrace),
    (.word "[", .openBracket), (.word "]", .closeBracket),
    (.word ",", .comma), (.word ":", .colon), (.word ";", .semiColon), (.word "->", .arrow),
    (.integer, .integer), (.float, .float), (.string, .string), (.identifier, .identifier)]

-- The longest match among `rules`, with its length. An earlier rule wins a tie.
def best (text : List Char) (rules : List (Pattern × TokenKind)) : Nat × TokenKind :=
  rules.foldl
    (fun found (pattern, kind) =>
      if found.1 < pattern.longest text then (pattern.longest text, kind) else found)
    (0, .illegal)

end Pattern

end Capuchin

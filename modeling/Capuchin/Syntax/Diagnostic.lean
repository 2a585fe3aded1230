import Capuchin.Token.Basic

namespace Capuchin

-- What the parser objects to. Every objection points at the token it met.
inductive Diagnostic where
  | expectedToken (expected : TokenKind) (found : Token)
  | expectedExpression (found : Token)
  | unexpectedToken (found : Token)
  | unexpectedEnd (found : Token)
  | invalidLiteral (found : Token)
  deriving DecidableEq, Repr, Inhabited

namespace Diagnostic

def found : Diagnostic → Token
  | expectedToken _ found => found
  | expectedExpression found => found
  | unexpectedToken found => found
  | unexpectedEnd found => found
  | invalidLiteral found => found

def message : Diagnostic → String
  | expectedToken expected found => "Expected " ++ expected.name ++ ", got " ++ found.describe
  | expectedExpression found => "Expected expression, got " ++ found.describe
  | unexpectedToken found => "Unexpected token " ++ found.describe
  | unexpectedEnd _ => "Unexpected end of file"
  | invalidLiteral found =>
    "Invalid " ++ found.kind.name ++ " literal at start: " ++ toString found.start ++
      " end: " ++ toString found.stop ++ " literal: " ++ found.literal

-- All messages, each on a line.
def report (diagnostics : List Diagnostic) : String :=
  "\n".intercalate (diagnostics.map message)

end Diagnostic

end Capuchin

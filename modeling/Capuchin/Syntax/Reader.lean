import Capuchin.Syntax.Diagnostic

namespace Capuchin

-- What a reader makes of the tokens at a cursor: a value, the cursor behind the tokens it took,
-- and its objections in the order in which it met their tokens.
structure Reading (α : Type) where
  value : α
  rest : Cursor
  diagnostics : List Diagnostic

-- A part of the parser. It always gives a value, in which holes stand for what is not there.
def Reader (α : Type) : Type := Cursor → Reading α

namespace Reader

instance : Monad Reader where
  pure value := fun cursor => ⟨value, cursor, []⟩
  bind reader next := fun cursor =>
    let first := reader cursor
    let second := next first.value first.rest
    ⟨second.value, second.rest, first.diagnostics ++ second.diagnostics⟩

@[simp] theorem pure_apply (value : α) (cursor : Cursor) :
    (pure value : Reader α) cursor = ⟨value, cursor, []⟩ := rfl

@[simp] theorem bind_apply (reader : Reader α) (next : α → Reader β) (cursor : Cursor) :
    (reader >>= next) cursor =
      ⟨(next (reader cursor).value (reader cursor).rest).value,
        (next (reader cursor).value (reader cursor).rest).rest,
        (reader cursor).diagnostics ++
          (next (reader cursor).value (reader cursor).rest).diagnostics⟩ := rfl

instance : LawfulMonad Reader := LawfulMonad.mk' Reader
  (fun reader => funext fun cursor =>
    congrArg (Reading.mk (reader cursor).value (reader cursor).rest) (List.append_nil _))
  (fun _ _ => funext fun _ => by simp)
  (fun _ _ _ => funext fun _ => by simp [List.append_assoc])

-- The token at the cursor.
def current : Reader Token := fun cursor => ⟨cursor.current, cursor, []⟩

-- The token behind the current one.
def following : Reader Token := fun cursor => ⟨cursor.following, cursor, []⟩

-- Takes the current token.
def advance : Reader Token := fun cursor => ⟨cursor.current, cursor.advance, []⟩

def report (diagnostic : Diagnostic) : Reader Unit := fun cursor => ⟨(), cursor, [diagnostic]⟩

-- Whether the current token is of a kind.
def isAt (kind : TokenKind) : Reader Bool := do
  return (← current).kind = kind

-- Takes a token of the given kind. Where another stands, it is reported and left.
def expect (kind : TokenKind) : Reader Unit := do
  let token ← current
  if token.kind = kind then
    let _ ← advance
  else
    report (.expectedToken kind token)

-- Reads something in front of a token of the kind `close`, and takes that token too.
def before (close : TokenKind) (reader : Reader α) : Reader α := do
  let value ← reader
  expect close
  return value

-- Further items, each behind a comma. `bound` limits their number.
def moreItems (item : Reader α) : Nat → Reader (List α)
  | 0 => return []
  | bound + 1 => do
    if ← isAt .comma then
      let _ ← advance
      let next ← item
      return next :: (← moreItems item bound)
    else
      return []

-- Items between commas, with the token that closes them.
def items (bound : Nat) (close : TokenKind) (item : Reader α) : Reader (List α) := do
  if ← isAt close then
    let _ ← advance
    return []
  else
    before close do
      let first ← item
      return first :: (← moreItems item bound)

-- Items in a row, up to a token of the kind `stop` or to the end.
def itemsUntil (stop : TokenKind) (item : Reader α) : Nat → Reader (List α)
  | 0 => return []
  | bound + 1 => do
    let kind := (← current).kind
    if kind = .eof ∨ kind = stop then
      return []
    else
      let first ← item
      return first :: (← itemsUntil stop item bound)

end Reader

end Capuchin

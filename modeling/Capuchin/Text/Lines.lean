namespace Capuchin.Text

-- A line, given backwards, without the carriage return in front of its line feed.
def withoutReturn : List Char → List Char
  | '\r' :: line => line
  | line => line

-- The lines of a text behind the characters of `line`, which are given backwards. The last
-- line may lack its line feed, and then keeps a carriage return.
def linesFrom (line : List Char) : List Char → List String
  | [] => if line = [] then [] else [String.ofList line.reverse]
  | '\n' :: rest => String.ofList (withoutReturn line).reverse :: linesFrom [] rest
  | c :: rest => linesFrom (c :: line) rest

-- The lines of a text without the characters that end them.
def lines (text : String) : List String := linesFrom [] text.toList

end Capuchin.Text

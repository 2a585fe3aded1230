import Capuchin.Syntax.Printer
import Capuchin.Value.Builtin

namespace Capuchin

-- A function is a piece of a program or a builtin. The former carries its own number, given
-- out when the definition or the literal was evaluated.
inductive Function where
  | user (number : Nat) (parameters : List String) (body : Block)
  | builtin (builtin : Builtin)

inductive Value where
  | null
  | integer (value : Int32)
  | float (value : Float32)
  | string (value : String)
  | boolean (value : Bool)
  | array (elements : List Value)
  | function (value : Function)

instance : Inhabited Function := ⟨.builtin default⟩

instance : Inhabited Value := ⟨.null⟩

-- The kinds of values, as errors name them.
inductive Kind where
  | null | integer | float | string | boolean | array | function
  deriving DecidableEq, Repr, Inhabited

def Kind.name : Kind → String
  | null => "Null"
  | integer => "Integer"
  | float => "Float"
  | string => "String"
  | boolean => "Boolean"
  | array => "Array"
  | function => "Function"

namespace Function

-- User functions are the same if they are one function, builtins if they have one name.
def same : Function → Function → Bool
  | user a _ _, user b _ _ => a = b
  | builtin a, builtin b => a = b
  | _, _ => false

instance : BEq Function := ⟨same⟩

def text : Function → String
  | user _ parameters body =>
    "fn" ++ Printer.parameters (parameters.map some) ++ " " ++ Printer.block (stmtTexts body)
  | builtin b => "builtin " ++ b.name

end Function

def Value.kind : Value → Kind
  | null => .null
  | integer _ => .integer
  | float _ => .float
  | string _ => .string
  | boolean _ => .boolean
  | array _ => .array
  | function _ => .function

mutual

-- Equality of values. Values of different kinds differ, arrays are compared element by
-- element, and floats as numbers: a number that is none differs from itself.
def Value.same : Value → Value → Bool
  | .null, .null => true
  | .integer a, .integer b => a = b
  | .float a, .float b => a == b
  | .string a, .string b => a = b
  | .boolean a, .boolean b => a = b
  | .array a, .array b => valuesSame a b
  | .function a, .function b => a == b
  | _, _ => false

def valuesSame : List Value → List Value → Bool
  | [], [] => true
  | a :: as, b :: bs => a.same b && valuesSame as bs
  | _, _ => false

end

mutual

-- The text of a value. Strings stand without quotes.
def Value.text : Value → String
  | .null => "null"
  | .integer value => Integer.text value
  | .float value => FloatText.text value
  | .string value => value
  | .boolean value => if value then "true" else "false"
  | .array elements => "[" ++ Printer.commaSeparated (valueTexts elements) ++ "]"
  | .function value => value.text

def valueTexts : List Value → List String
  | [] => []
  | value :: rest => value.text :: valueTexts rest

end

mutual

-- The parts of a value in pre-order, each as one line with its kind.
def Value.outline : Value → List String
  | .null => ["Null"]
  | .array elements => ("Array " ++ toString elements.length) :: valueOutlines elements
  | .function (.builtin b) => ["Builtin " ++ b.name]
  | value => [value.kind.name ++ " " ++ value.text]

def valueOutlines : List Value → List String
  | [] => []
  | value :: rest => value.outline ++ valueOutlines rest

end

end Capuchin

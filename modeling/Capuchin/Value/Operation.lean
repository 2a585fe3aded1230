import Capuchin.Value.Error

namespace Capuchin

-- The outcome of a comparison, by a type's own order tests.
def BinaryOp.compare? [BEq α] (less lessEqual : α → α → Bool) (op : BinaryOp) (a b : α) :
    Option Bool :=
  match op with
  | .less => some (less a b)
  | .greater => some (less b a)
  | .lessEqual => some (lessEqual a b)
  | .greaterEqual => some (lessEqual b a)
  | .equal => some (a == b)
  | .notEqual => some (a != b)
  | _ => none

-- The UTF-8 form of a string.
def utf8 (text : String) : List UInt8 := text.toList.flatMap String.utf8EncodeChar

-- The order of strings: byte by byte, a beginning of a string before the string.
def bytesLess (a b : String) : Bool := utf8 a < utf8 b

def bytesLessEqual (a b : String) : Bool := !bytesLess b a

namespace Operation

def compared (op : BinaryOp) (kind : Kind) (outcome : Option Bool) : Except RuntimeError Value :=
  match outcome with
  | some answer => .ok (.boolean answer)
  | none => .error (.unknownBinary op kind)

-- Arithmetic on integers wraps around at 32 bits, and division cuts the fraction off.
def onIntegers (op : BinaryOp) (a b : Int32) : Except RuntimeError Value :=
  match op with
  | .add => .ok (.integer (a + b))
  | .sub => .ok (.integer (a - b))
  | .mul => .ok (.integer (a * b))
  | .div => if b = 0 then .error .divisionByZero else .ok (.integer (a / b))
  | _ => compared op .integer (op.compare? (· < ·) (· ≤ ·) a b)

def onFloats (op : BinaryOp) (a b : Float32) : Except RuntimeError Value :=
  match op with
  | .add => .ok (.float (a + b))
  | .sub => .ok (.float (a - b))
  | .mul => .ok (.float (a * b))
  | .div => .ok (.float (a / b))
  | _ => compared op .float (op.compare? (· < ·) (· ≤ ·) a b)

def onStrings (op : BinaryOp) (a b : String) : Except RuntimeError Value :=
  match op with
  | .add => .ok (.string (a ++ b))
  | _ => compared op .string (op.compare? bytesLess bytesLessEqual a b)

def onBooleans (op : BinaryOp) (a b : Bool) : Except RuntimeError Value :=
  match op with
  | .and => .ok (.boolean (a && b))
  | .or => .ok (.boolean (a || b))
  | .equal => .ok (.boolean (a == b))
  | .notEqual => .ok (.boolean (a != b))
  | _ => .error (.unknownBinary op .boolean)

def onArrays (op : BinaryOp) (a b : List Value) : Except RuntimeError Value :=
  match op with
  | .equal => .ok (.boolean (valuesSame a b))
  | .notEqual => .ok (.boolean (!valuesSame a b))
  | _ => .error (.unknownBinary op .array)

end Operation

-- A binary operator applied to values. Both have to be of one kind, which may be neither null
-- nor function.
def BinaryOp.apply (op : BinaryOp) (left right : Value) : Except RuntimeError Value :=
  match left, right with
  | .integer a, .integer b => Operation.onIntegers op a b
  | .float a, .float b => Operation.onFloats op a b
  | .string a, .string b => Operation.onStrings op a b
  | .boolean a, .boolean b => Operation.onBooleans op a b
  | .array a, .array b => Operation.onArrays op a b
  | .null, _ => .error (.unknownBinary op .null)
  | .function _, _ => .error (.unknownBinary op .function)
  | _, _ => .error (.operandMismatch op left.kind right.kind)

-- A unary operator applied to a value. A sign in front of a boolean gives null, and `!` asks
-- of an array whether it is empty.
def UnaryOp.apply (op : UnaryOp) (operand : Value) : Except RuntimeError Value :=
  match op, operand with
  | .negate, .integer n => .ok (.integer (-n))
  | .negate, .float x => .ok (.float (-x))
  | .plus, .integer n => .ok (.integer n)
  | .plus, .float x => .ok (.float x)
  | .not, .boolean b => .ok (.boolean !b)
  | .not, .array elements => .ok (.boolean elements.isEmpty)
  | .negate, .boolean _ => .ok .null
  | .plus, .boolean _ => .ok .null
  | _, _ => .error (.unknownUnary op operand.kind)

end Capuchin

namespace Capuchin

-- The functions that are there without a definition, in the order in which they are installed.
inductive Builtin where
  | print | println | input | len | push | pop | toInt | toFloat | map | filter | reduce
  deriving DecidableEq, Repr, Inhabited

-- How many arguments a function takes.
inductive Arity where
  | exactly (count : Nat)
  | any
  deriving DecidableEq, Repr, Inhabited

namespace Builtin

def all : List Builtin :=
  [print, println, input, len, push, pop, toInt, toFloat, map, filter, reduce]

theorem mem_all (builtin : Builtin) : builtin ∈ all := by cases builtin <;> decide

def name : Builtin → String
  | print => "print"
  | println => "println"
  | input => "input"
  | len => "len"
  | push => "push"
  | pop => "pop"
  | toInt => "toInt"
  | toFloat => "toFloat"
  | map => "map"
  | filter => "filter"
  | reduce => "reduce"

theorem name_injective {a b : Builtin} (h : a.name = b.name) : a = b := by
  revert h
  cases a <;> cases b <;> decide

def arity : Builtin → Arity
  | print | println => .any
  | input => .exactly 0
  | len | pop | toInt | toFloat => .exactly 1
  | push | map | filter => .exactly 2
  | reduce => .exactly 3

def ofName? (name : String) : Option Builtin := all.find? fun builtin => builtin.name = name

end Builtin

end Capuchin

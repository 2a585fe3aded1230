import Capuchin.Value.Error

namespace Capuchin

-- The names bound in one place, the latest first. A name stands in it at most once.
abbrev Bindings := List (String × Value)

namespace Bindings

def find? (bindings : Bindings) (name : String) : Option Value := bindings.lookup name

def put (bindings : Bindings) (name : String) (value : Value) : Bindings :=
  (name, value) :: bindings.filter fun binding => binding.1 ≠ name

end Bindings

-- One activation of a function, or the outermost level: its own bindings, and the number of
-- the frame to ask for the names it does not bind.
structure Frame where
  bindings : Bindings
  parent : Option Nat

-- The live frames by their numbers. Frame 0, the root, is always live.
structure Environment where
  frames : Array Frame

-- What comes of asking for a name: its value, or that no frame on the way to the root binds
-- it. The way is broken if it leaves the live frames or does not descend.
inductive Lookup where
  | bound (value : Value)
  | unbound
  | broken

namespace Environment

def empty : Environment := { frames := #[{ bindings := [], parent := none }] }

instance : Inhabited Environment := ⟨empty⟩

def root : Nat := 0

-- How many frames are live.
def depth (environment : Environment) : Nat := environment.frames.size

-- A new frame that asks `parent` next, and its number.
def push (environment : Environment) (parent : Nat) : Environment × Nat :=
  ({ frames := environment.frames.push { bindings := [], parent := some parent } },
    environment.depth)

-- Releases a frame and all later ones. The root stays.
def pop (environment : Environment) (frame : Nat) : Environment :=
  { frames := environment.frames.take (max frame 1) }

-- Binds a name in a frame itself, never further out.
def set (environment : Environment) (frame : Nat) (name : String) (value : Value) : Environment :=
  { frames := environment.frames.modify frame fun f =>
      { f with bindings := f.bindings.put name value } }

-- The value of a name, as seen from a frame: the nearest binding on the way to the root.
def get (environment : Environment) (frame : Nat) (name : String) : Lookup :=
  match environment.frames[frame]? with
  | none => .broken
  | some f =>
    match f.bindings.find? name with
    | some value => .bound value
    | none =>
      match f.parent with
      | none => .unbound
      | some parent => if parent < frame then environment.get parent name else .broken
termination_by frame

-- Binds the builtins by their names.
def install (environment : Environment) (frame : Nat) : Environment :=
  Builtin.all.foldl
    (fun environment builtin =>
      environment.set frame builtin.name (.function (.builtin builtin)))
    environment

end Environment

end Capuchin

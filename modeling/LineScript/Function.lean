import LineScript.Program

/-!
# Functions

The functions that a script has defined, by name.  A function is never removed or changed.
-/

namespace LineScript

structure Parameter where
  name : String
  type : ValueType
  deriving DecidableEq, Repr

structure Function where
  name : String
  parameters : List Parameter
  /-- The type of what the function returns; `null` for one that returns nothing. -/
  returns : ValueType
  body : Extent
  /-- The source line of the definition. -/
  line : Nat
  deriving DecidableEq, Repr

structure Functions where
  all : List Function := []
  deriving DecidableEq, Repr

namespace Functions

def size (fs : Functions) : Nat :=
  fs.all.length

def get? (fs : Functions) (name : String) : Option Function :=
  fs.all.find? fun f => f.name = name

def contains (fs : Functions) (name : String) : Bool :=
  (fs.get? name).isSome

def register (fs : Functions) (f : Function) : Except RuntimeError Functions :=
  if fs.contains f.name then .error { cause := .functionTwice f.name, line := f.line }
  else .ok { fs with all := fs.all ++ [f] }

end Functions

end LineScript

import LineScript.Operator

/-!
# Keywords

The words that direct control, and the signals that `break` and `continue` leave in their line.
-/

namespace LineScript

inductive Keyword where
  | «if»
  | «else»
  | «while»
  | «for»
  | goto
  | goback
  | define
  | «return»
  | system
  | «break»
  | «continue»
  deriving DecidableEq, Repr

/-- What a loop is told when the statement completes. -/
inductive Signal where
  | «break»
  | «continue»
  deriving DecidableEq, Repr

def Keyword.priority : Keyword → Int
  | .if | .return => Priority.deferred
  | .system => Priority.system
  | _ => Priority.control

def Keyword.word : Keyword → String
  | .if => "if"
  | .else => "else"
  | .while => "while"
  | .for => "for"
  | .goto => "goto"
  | .goback => "goback"
  | .define => "def"
  | .return => "return"
  | .system => "system"
  | .break => "break"
  | .continue => "continue"

def Signal.word : Signal → String
  | .break => "break"
  | .continue => "continue"

end LineScript

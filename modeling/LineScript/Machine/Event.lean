import LineScript.Line

/-!
# Events

What a step reports besides its result.  Events have no influence on a run.
-/

namespace LineScript

inductive LoopForm where
  | «while»
  | «for»
  deriving DecidableEq, Repr

def LoopForm.text : LoopForm → String
  | .while => "While"
  | .for => "For"

inductive Level where
  | debug
  | trace
  deriving DecidableEq, Repr

inductive Event where
  | loaded (lines labels : Nat)
  | reducing (line : Nat) (token : Token) (working : Line)
  | negationWaits (line : Nat) (priority : Int)
  | binary (op : Operator) (result : Value)
  | assigned (name : String) (value : Value)
  | finished (scopes calls : Nat)
  | jump (line : Nat)
  | branch (line : Nat) (taken : Bool)
  | goto (origin target pending removed : Nat)
  | goback (target pending : Nat)
  | builtin (name : String) (arguments : Nat)
  | scopeClosed (line removed : Nat)
  | defined (name : String) (parameters : Nat) (returns : ValueType)
  | called (name : String) (depth : Nat)
  | returned (name : String) (value : Value) (removed resume : Nat)
  | loopEntered (form : LoopForm) (header close : Nat)
  | loopLeft (header removed : Nat)
  deriving DecidableEq, Repr

namespace Event

def level : Event → Level
  | .reducing _ _ _ => .trace
  | .negationWaits _ _ => .trace
  | .binary _ _ => .trace
  | .assigned _ _ => .trace
  | _ => .debug

def message : Event → String
  | .loaded _ _ => "loaded program"
  | .reducing _ _ _ => "reducing"
  | .negationWaits _ _ => "negation waits for '**'"
  | .binary _ _ => "binary"
  | .assigned _ _ => "assigned"
  | .finished _ _ => "program finished"
  | .jump _ => "jump"
  | .branch _ _ => "if"
  | .goto _ _ _ _ => "goto"
  | .goback _ _ => "goback"
  | .builtin _ _ => "system"
  | .scopeClosed _ _ => "close scope"
  | .defined _ _ _ => "defined function"
  | .called _ _ => "call"
  | .returned _ _ _ _ => "return"
  | .loopEntered _ _ _ => "enter loop"
  | .loopLeft _ _ => "exit loop"

def boolText (b : Bool) : String :=
  if b then "true" else "false"

def fields : Event → List (String × String)
  | .loaded lines labels => [("lines", toString lines), ("labels", toString labels)]
  | .reducing line token working =>
      [("line", toString line), ("token", token.text), ("priority", toString token.priority),
       ("working", working.text)]
  | .negationWaits line priority =>
      [("line", toString line), ("priority", toString priority)]
  | .binary op result => [("op", op.symbol), ("result", result.text)]
  | .assigned name value => [("name", name), ("value", value.text)]
  | .finished scopes calls => [("scopes", toString scopes), ("calls", toString calls)]
  | .jump line => [("line", toString line)]
  | .branch line taken => [("line", toString line), ("taken", boolText taken)]
  | .goto origin target pending removed =>
      [("from", toString origin), ("to", toString target), ("pending", toString pending),
       ("removed", toString removed)]
  | .goback target pending => [("to", toString target), ("pending", toString pending)]
  | .builtin name arguments => [("name", name), ("args", toString arguments)]
  | .scopeClosed line removed => [("line", toString line), ("removed", toString removed)]
  | .defined name parameters returns =>
      [("name", name), ("parameters", toString parameters), ("returns", returns.name)]
  | .called name depth => [("name", name), ("depth", toString depth)]
  | .returned name value removed resume =>
      [("name", name), ("value", value.text), ("removed", toString removed),
       ("resume", toString resume)]
  | .loopEntered form header close =>
      [("kind", form.text), ("header", toString header), ("body_close", toString close)]
  | .loopLeft header removed => [("header", toString header), ("removed", toString removed)]

end Event

end LineScript

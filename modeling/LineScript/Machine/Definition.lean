import LineScript.Machine.Action

/-!
# Definitions

A definition registers a function and skips its body.  Its header is a type, a name and a list of
parameters between parentheses.
-/

namespace LineScript.Action

def resultType? : TokenKind → Option ValueType
  | .type t => some t
  | .literal .null => some .null
  | _ => none

def readParameters (read : List Parameter) : Option ValueType → List Cell →
    Except Cause (List Parameter)
  | none, [] => .ok read
  | some type, [] => .error (.cannotReduce type.name)
  | pending, c :: cs =>
      match c.token.kind, pending with
      | .comma, none => readParameters read none cs
      | .type type, none => readParameters read (some type) cs
      | .name name, some type =>
          if read.any fun p => p.name = name then .error (.redeclared name)
          else readParameters (read ++ [{ name, type }]) none cs
      | kind, _ => .error (.cannotReduce kind.text)

def functionHeader? (cells : List Cell) : Option (ValueType × String × Cell × List Cell) :=
  match cells with
  | ret :: name :: opening :: rest =>
      match resultType? ret.token.kind, name.token.kind, opening.token.kind with
      | some type, .name text, .bracket .call .opening =>
          some (type, text, opening, rest)
      | _, _, _ => none
  | _ => none

/-- Registers the function of a `def` and goes on after its body.  The header is read from the
program line, not from its working copy. -/
def define (f : Focus) : Action Unit := do
  let m ← get
  let header := m.work.index
  let line ← ofFault (m.program.lineAt header)
  let start ← ofFault (line.focus f.cell.ref)
  let lineNo := start.cell.token.line
  match functionHeader? start.after with
  | none => fail lineNo (.cannotReduce Keyword.define.word)
  | some (returns, name, opening, rest) =>
      match ← ofFault (Line.enclosed .call opening rest) with
      | none => fail lineNo (.neverClosed "(")
      | some (inner, close, _) =>
          let parameters ← ofCause lineNo (readParameters [] none inner)
          let body ← ofExcept (m.program.blockAfter { line := header, token := close.ref })
          emit (.defined name parameters.length returns)
          match m.functions.register { name, parameters, returns, body, line := lineNo } with
          | .error e => raise e
          | .ok functions =>
              modify fun m => { m with functions }
              let after ← ofFault (m.program.following body.closing)
              goTo after

end LineScript.Action

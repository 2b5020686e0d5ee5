import LineScript.Machine.Action

/-!
# Labels

A `goto` leaves the loops and blocks of the running function that do not contain its target, and
remembers the line it came from for a `goback`.
-/

namespace LineScript.Action

/-- The scopes that stay open when a block does: all, unless the target lies outside of it. -/
def keptByBlock (p : Program) (target keep : Nat) (b : Block) : Except Stop Nat := do
  let close ← p.blockEnd b.brace
  if target ≤ b.brace.line ∨ close.line < target then
    match b.depth with
    | 0 => throw (.fault .underflow)
    | depth + 1 => return min keep depth
  else return keep

/-- The scopes that stay open when the running function jumps to a line: those outside of every loop
and block of the function that does not contain the line. -/
def scopesKept (m : Machine) (target : Nat) : Except Stop Nat := do
  let opened := m.symbols.depth
  let floor :=
    match m.calls with
    | [] => 0
    | call :: _ => call.scopes + 1
  let left := m.loops.filter fun loop => loop.calls = m.calls.length && !loop.contains target
  let keep := left.foldl (fun keep loop => min keep loop.scopes) opened
  let blocks := m.blocks.filter fun b => floor < b.depth && b.depth ≤ opened
  blocks.foldlM (keptByBlock m.program target) keep

def jumpToLabel (f : Focus) : Action Unit := do
  match f.nextName? with
  | some name =>
      let m ← get
      match m.program.label? name with
      | none => fail f.cell.token.line (.undefinedLabel name)
      | some target =>
          let keep ← ofExcept (scopesKept m target)
          let symbols := m.symbols.unwind keep
          let origin := m.work.index
          modify fun m =>
            { m with
              gotos := origin :: m.gotos
              loops := m.loops.filter fun loop =>
                loop.calls ≠ m.calls.length || loop.contains target
              symbols
              blocks := m.blocks.filter fun b => b.depth ≤ keep }
          emit (.goto origin target (m.gotos.length + 1) (m.symbols.size - symbols.size))
          goToLine target
  | none => raise f.cell.token.stray

def jumpBack (f : Focus) : Action Unit := do
  let m ← get
  match m.gotos with
  | [] => fail f.cell.token.line .noGoto
  | origin :: gotos =>
      modify fun m => { m with gotos }
      emit (.goback (origin + 1) gotos.length)
      goToLine (origin + 1)

end LineScript.Action

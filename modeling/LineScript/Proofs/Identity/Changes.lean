import LineScript.Proofs.Effects.Steps

/-!
# What a step does to tokens

Tokens stand in the working line and in the lines that calls have saved.  Whatever a step does, it
changes these lines in few ways: it drops tokens and changes priorities, puts a value in the place
of a token, puts new tokens in the place of one, copies a line of the program, saves the line or
comes back to one.  `Machine.Change` lists these ways, and a step is made of such changes.  So what
each of them keeps, every step and every run keeps (`Machine.Stable.after`).
-/

namespace LineScript

def TokenKind.isLiteral : TokenKind → Bool
  | .literal _ => true
  | _ => false

theorem TokenKind.isLiteral_of_name? {k : TokenKind} {name : String} (named : k.name? = some name) :
    k.isLiteral = false := by
  cases k with
  | name _ => rfl
  | _ => cases named

theorem TokenKind.isLiteral_of_isInert {k : TokenKind} (active : k.isInert = false) :
    k.isLiteral = false := by
  cases k with
  | literal _ => cases active
  | _ => rfl

def Cell.core (c : Cell) : Cell :=
  { c with token := { c.token with priority := 0, expanded := false } }

theorem Cell.core_eq_iff {c d : Cell} : c.core = d.core ↔
    c.ref = d.ref ∧ c.token.kind = d.token.kind ∧ c.token.id = d.token.id ∧
      c.token.line = d.token.line := by
  simp [core]

theorem Cell.core_boostCell (amount : Int) (c : Cell) : (Line.boostCell amount c).core = c.core :=
  rfl

namespace Machine

/-- A change of what a machine holds.  The tokens of its lines may change in no other way. -/
inductive Change (m : Machine) : Machine → Prop where
  /-- What is not in a line. -/
  | aside (symbols : Symbols) (functions : Functions) (gotos : List Nat) (loops : List Loop)
      (blocks : List Block) (sink : Sink) (finished : Bool) (purpose : Purpose)
      (selected : Option Ref) :
      m.Change
        { m with
          symbols, functions, gotos, loops, blocks, sink, finished
          work := { m.work with purpose, selected } }
  /-- Tokens are dropped or get other priorities. -/
  | thin {cells : List Cell} (kept : (cells.map Cell.core).Sublist
      (m.work.line.cells.map Cell.core)) :
      m.Change { m with work := { m.work with line := m.work.line.withCells cells } }
  /-- A value takes the place of a token that was none. -/
  | answer {before after : List Cell} {c : Cell} (whole : m.work.line.cells = before ++ c :: after)
      (other : c.token.kind.isLiteral = false) (value : Value) :
      m.Change
        { m with
          nextId := m.nextId + 1
          work :=
            { m.work with
              line := m.work.line.withCells
                (before ++ { c with token := .literal value m.nextId c.token.line } :: after) } }
  /-- Tokens with new references take the place of one. -/
  | draw {before after : List Cell} {c : Cell} (made : List Cell)
      (whole : m.work.line.cells = before ++ c :: after)
      (refs : made.map Cell.ref = List.range' m.work.line.nextRef made.length)
      (ids : made.map (fun c => c.token.id) = List.range' m.nextId made.length) :
      m.Change
        { m with
          nextId := m.nextId + made.length
          work :=
            { m.work with
              line :=
                { cells := before ++ made ++ after
                  nextRef := m.work.line.nextRef + made.length } } }
  | copy {index : Nat} {line : Line} (found : m.program.lines[index]? = some line)
      (purpose : Purpose)
      (selected : Option Ref) : m.Change { m with work := { index, line, purpose, selected } }
  | clear : m.Change { m with work := {} }
  /-- The line of a call is saved.  The call knows a token of it that is no value. -/
  | save {before after : List Cell} {name : Cell} (c : Call) (saved : c.saved = m.work)
      (whole : m.work.line.cells = before ++ name :: after) (ref : name.ref = c.nameRef)
      (other : name.token.kind.isLiteral = false) :
      m.Change { m with work := {}, calls := c :: m.calls }
  /-- The line of a call is back, with a value in the place of the token that the call knows. -/
  | restore {before after : List Cell} {name : Cell} (c : Call) (calls : List Call)
      (own : m.calls = c :: calls) (whole : c.saved.line.cells = before ++ name :: after)
      (ref : name.ref = c.nameRef) (value : Value) :
      m.Change
        { m with
          calls
          nextId := m.nextId + 1
          work :=
            { c.saved with
              line := c.saved.line.withCells
                (before ++
                  { name with token := .literal value m.nextId name.token.line } :: after) } }

def Stable (P : Machine → Prop) : Prop :=
  ∀ m m', P m → m.Change m' → P m'

end Machine

/-!
## Parts of lines
-/

theorem Line.eq_withCells {l l' : Line} (same : l'.nextRef = l.nextRef) :
    l.withCells l'.cells = l' := by
  rw [withCells, ← same]

theorem Focus.sublist_around (f : Focus) : (f.before.reverse ++ f.after).Sublist f.cells :=
  (List.Sublist.refl _).append (List.sublist_cons_self _ _)

theorem Action.length_chainCells (line : Nat) (priority : Int) (r : Ref) (id : Nat)
    (kinds : List TokenKind) : (chainCells line priority r id kinds).length = kinds.length := by
  rw [← List.length_map Cell.ref, map_ref_chainCells, List.length_range']

theorem Action.id_pieceToken (line : Nat) (priority : Int) (kind : TokenKind) (id : Nat) :
    (pieceToken line priority kind id).id = id := by
  cases kind <;> rfl

theorem Action.map_id_chainCells (line : Nat) (priority : Int) (r : Ref) (id : Nat)
    (kinds : List TokenKind) :
    (chainCells line priority r id kinds).map (fun c => c.token.id) =
      List.range' id kinds.length := by
  induction kinds generalizing r id with
  | nil => rfl
  | cons k kinds ih => simp [chainCells, ih, id_pieceToken, List.range'_succ]

/-!
## Steps and runs
-/

namespace Machine

variable {P : Machine → Prop} (stable : Stable P) {m m' : Machine} {f : Focus}

include stable

theorem Fetches.keeps (fetches : m.Fetches m') (holds : P m) : P m' := by
  cases fetches with
  | @copy index line part found cells nextRef purpose selected =>
      have copied := stable _ _ holds (.copy found purpose selected)
      have thinned := stable _ _ copied (.thin (cells.sublist.map Cell.core))
      rwa [Line.eq_withCells nextRef] at thinned
  | halt =>
      have cleared := stable _ _ holds .clear
      exact stable _ _ cleared (.aside ..)

theorem Unwinds.keeps (unwinds : m.Unwinds m') (holds : P m) : P m' := by
  cases unwinds
  exact stable _ _ holds (.aside ..)

theorem Jumps.keeps (jumps : m.Jumps m') (holds : P m) : P m' := by
  obtain ⟨unwinds, fetches⟩ := jumps
  exact fetches.keeps stable (unwinds.keeps stable holds)

theorem Settles.keeps (settles : m.Settles m') (holds : P m) : P m' := by
  rcases settles with ⟨-, rfl⟩ | jumps
  · exact holds
  · exact jumps.keeps stable holds

theorem Stable.drop {cells : List Cell} (holds : P m) (kept : cells.Sublist m.work.line.cells) :
    P (m.withCells cells) :=
  stable _ _ holds (.thin (kept.map Cell.core))

theorem Edits.keeps (edits : m.Edits f m') (whole : f.cells = m.work.line.cells)
    (active : f.cell.token.kind.isInert = false) (holds : P m) : P m' := by
  have around : (f.before.reverse ++ f.after).Sublist m.work.line.cells := whole ▸ f.sublist_around
  have other : f.cell.token.kind.isLiteral = false := TokenKind.isLiteral_of_isInert active
  cases edits with
  | @answer before after used value symbols sink cells member _ _ =>
      have kept : (before ++ f.cell :: after).Sublist m.work.line.cells := by
        rw [← whole, cells, List.append_assoc]
        refine (List.Sublist.refl _).append ?_
        exact (List.singleton_sublist.2 member).append (.refl after)
      have bound : P { m with symbols, sink } := stable _ _ holds (.aside ..)
      exact stable _ _ (stable.drop bound kept) (.answer rfl other value)
  | wait _ _ =>
      refine stable _ _ holds (.thin ?_)
      rw [← whole]
      simp [Focus.cells, Cell.core]
  | @declare _ _ symbols _ _ =>
      have bound : P { m with symbols } := stable _ _ holds (.aside ..)
      exact stable.drop bound around
  | @expand _ segments priority _ _ =>
      have drawn := stable _ _ holds (.draw
        (Action.chainCells f.cell.token.line priority m.work.line.nextRef m.nextId
          (Template.expansion segments))
        (show m.work.line.cells = f.before.reverse ++ f.cell :: f.after from whole.symm)
        (by rw [Action.map_ref_chainCells, Action.length_chainCells])
        (by rw [Action.map_id_chainCells, Action.length_chainCells]))
      simpa only [Action.length_chainCells] using drawn
  | @clear sink _ =>
      have printed : P { m with sink } := stable _ _ holds (.aside ..)
      exact stable.drop printed (List.nil_sublist _)
  | signal signal =>
      -- The line is dropped but for the token that acts, whose place the signal takes.
      have alone : [f.cell].Sublist m.work.line.cells := by simp [← whole, Focus.cells]
      have marked := stable _ _ (stable.drop holds alone) (.draw
        [⟨m.work.line.nextRef, Token.new (.signal signal) m.nextId f.cell.token.line⟩]
        (show [f.cell] = [] ++ f.cell :: [] from rfl) rfl rfl)
      exact marked
  | @reach _ inner rest close _ _ split =>
      refine stable _ _ holds (.thin ?_)
      rw [← whole, Focus.cells, ← Line.splitClose?_append split]
      simp only [List.map_append, List.map_cons, Line.map_boostUntil (Cell.core_boostCell _)]
      exact .refl _
  | @unwrap _ c close rest _ split =>
      refine stable.drop holds ?_
      rw [← whole, Focus.cells, ← Line.splitClose?_append split]
      refine (List.Sublist.refl _).append (.cons _ ?_)
      exact (List.sublist_cons_self _ _).cons_cons c
  | openBlock _ => exact stable _ _ (stable.drop holds around) (.aside ..)
  | closeBlock _ => exact stable _ _ (stable.drop holds around) (.aside ..)

theorem HandsBack.keeps {value : Value} (back : m.HandsBack value m') (holds : P m) : P m' := by
  obtain @⟨call, calls, site, own, found⟩ := back
  obtain ⟨whole, ref⟩ := Line.focus_ok found
  have restored := stable _ _ holds (.restore call calls own whole.symm ref value)
  have short : (site.before.reverse ++
        { site.cell with token := .literal value m.nextId site.cell.token.line } ::
          (site.after.dropWhile fun c => c.ref ≠ call.closeRef).drop 1).Sublist
      (site.before.reverse ++
        { site.cell with token := .literal value m.nextId site.cell.token.line } :: site.after) :=
    (List.Sublist.refl _).append
      (((List.drop_sublist 1 _).trans (List.dropWhile_sublist _)).cons_cons _)
  exact stable _ _ (stable.drop restored short) (.aside ..)

theorem Transfers.keeps (transfers : m.Transfers f m') (whole : f.cells = m.work.line.cells)
    (holds : P m) : P m' := by
  have around : (f.before.reverse ++ f.after).Sublist m.work.line.cells := whole ▸ f.sublist_around
  have closed : P (({ m with symbols := m.symbols.pop } : Machine).withCells
      (f.before.reverse ++ f.after)) := stable _ _ (stable.drop holds around) (.aside ..)
  cases transfers with
  | jump jumps => exact jumps.keeps stable holds
  | loop _ _ jumps => exact jumps.keeps stable (stable _ _ holds (.aside ..))
  | iterate jumps => exact jumps.keeps stable closed
  | define _ _ _ fetches => exact fetches.keeps stable (stable _ _ holds (.aside ..))
  | @call _ _ close name _ function _ _ _ _ _ prev named _ _ _ _ fetches =>
      have site : m.work.line.cells = f.before.tail.reverse ++ name :: (f.cell :: f.after) := by
        rw [← whole, Focus.cells, Focus.eq_of_prev? prev]
        simp
      have saved := stable _ _ holds (.save (m.frameOf function name close) rfl site rfl
        (TokenKind.isLiteral_of_name? named))
      exact fetches.keeps stable (stable _ _ saved (.aside ..))
  | giveBack _ back => exact back.keeps stable holds
  | finish back => exact back.keeps stable closed

theorem Stable.next (holds : P m) (step : m.next = .ok m') : P m' := by
  have unselected : P { m with work := { m.work with selected := none } } :=
    stable _ _ holds (.aside ..)
  cases does_of_next step with
  | rest _ => exact holds
  | conclude selected _ settles =>
      refine settles.keeps stable ?_
      exact stable _ _ (stable.drop holds (List.nil_sublist _)) (.aside ..)
  | edit acts active _ edits =>
      have whole := whole_of_acting acts
      exact edits.keeps stable whole active unselected
  | transfer acts _ transfers =>
      have whole := whole_of_acting acts
      exact transfers.keeps stable whole unselected

theorem Stable.after {p : Program} {settings : Settings} {m : Machine} {k : Nat}
    (holds : P (initial p settings)) (reached : (start p settings).machine.after k = .ok m) : P m :=
  after_induction reached
    (start_of_leads ((Action.goToLine_fetches 0).mono fun _ fetches => fetches.keeps stable holds))
    fun _ _ => stable.next

end Machine

end LineScript

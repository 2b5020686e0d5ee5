import LineScript.Proofs.Effects.Edits

/-!
# What a step does

The token that acts edits its line, or it passes control on (`Machine.Transfers`): to another line,
into a loop, past the body of a definition, into a function or back to a caller.  A line with
nothing left to do is followed by another one.  A step does nothing else (`Machine.does_of_next`),
so what all these changes keep is an invariant of every run.
-/

namespace LineScript

/-!
## Transfers of control
-/

inductive Symbols.Declares : Symbols → List (Parameter × Value) → Symbols → Prop where
  | nil (s : Symbols) : Declares s [] s
  | cons {s s₁ s' : Symbols} {p : Parameter} {v : Value} {rest : List (Parameter × Value)}
      (added : s.add p.name p.type v .parameter = .ok s₁) (others : Declares s₁ rest s') :
      Declares s ((p, v) :: rest) s'

theorem Symbols.Declares.grows {s s' : Symbols} {params : List (Parameter × Value)}
    (declares : s.Declares params s') : s.Grows s' := by
  induction declares with
  | nil s => exact .refl s
  | cons added others ih => exact (Symbols.grows_add added).trans ih

namespace Machine

def frameOf (m : Machine) (function : Function) (name close : Cell) : Call where
  function
  origin := m.work.index
  nameRef := name.ref
  closeRef := close.ref
  scopes := m.symbols.depth
  loops := m.loops.length
  saved := m.work

/-- The innermost call returns a value, which takes the place of the call in the line of
the caller. -/
inductive HandsBack (m : Machine) (value : Value) : Machine → Prop where
  | intro {call : Call} {calls : List Call} {site : Focus} (own : m.calls = call :: calls)
      (found : call.saved.line.focus call.nameRef = .ok site) :
      m.HandsBack value
        { m with
          calls
          symbols := m.symbols.unwind call.scopes
          loops := m.loops.drop (m.loops.length - call.loops)
          nextId := m.nextId + 1
          work :=
            { call.saved with
              line := call.saved.line.withCells (site.before.reverse ++
                { site.cell with token := .literal value m.nextId site.cell.token.line } ::
                  (site.after.dropWhile fun c => c.ref ≠ call.closeRef).drop 1) } }

inductive Transfers (m : Machine) (f : Focus) : Machine → Prop where
  | jump {m' : Machine} (jumps : m.Jumps m') : m.Transfers f m'
  | loop {loop : Loop} {r : Ref} {m' : Machine}
      (kind : f.cell.token.kind = .keyword .while ∨ f.cell.token.kind = .keyword .for)
      (body : m.program.blockAfter { line := m.work.index, token := r } = .ok loop.body)
      (jumps : ({ m with
        symbols := m.symbols.push
        blocks := m.keptBlocks
        loops := loop :: m.loops } : Machine).Jumps m') : m.Transfers f m'
  /-- The `}` of a loop. -/
  | iterate {m' : Machine} (jumps : (({ m with symbols := m.symbols.pop } : Machine).withCells
      (f.before.reverse ++ f.after)).Jumps m') : m.Transfers f m'
  | define {function : Function} {functions : Functions} {r : Ref} {m' : Machine}
      (kind : f.cell.token.kind = .keyword .define)
      (body : m.program.blockAfter { line := m.work.index, token := r } = .ok function.body)
      (registered : m.functions.register function = .ok functions)
      (fetches : ({ m with functions } : Machine).Fetches m') : m.Transfers f m'
  | call {inner rest : List Cell} {close name : Cell} {word : String} {function : Function}
      {args : List Value} {symbols : Symbols} {m' : Machine}
      (kind : f.cell.token.kind = .bracket .call .opening)
      (split : Line.splitClose? .call 0 f.after = some (inner, close, rest))
      (prev : f.prev? = some name) (named : name.token.kind.name? = some word)
      (read : Action.readArguments m close [] true inner = .ok args)
      (found : m.callee word = .ok function)
      (checked : Action.checkArguments function args = .ok ())
      (declares : m.symbols.push.Declares (function.parameters.zip args) symbols)
      (fetches : ({ m with
        work := {}
        symbols
        blocks := m.keptBlocks
        calls := m.frameOf function name close :: m.calls } : Machine).Fetches m') :
      m.Transfers f m'
  | giveBack {value : Value} {m' : Machine}
      (given : value = .null ∨ ∃ c ∈ f.cells, m.valueOf c.token = .ok value)
      (back : m.HandsBack value m') : m.Transfers f m'
  /-- The `}` of a function. -/
  | finish {m' : Machine} (back : (({ m with symbols := m.symbols.pop } : Machine).withCells
      (f.before.reverse ++ f.after)).HandsBack .null m') : m.Transfers f m'

end Machine

namespace Action

variable {m : Machine} {f : Focus}

theorem beginLoop_leads (loop : Loop) : (beginLoop loop).Leads m fun m' =>
    m' = { m with symbols := m.symbols.push, blocks := m.keptBlocks, loops := loop :: m.loops } :=
  (looks_emit _).leads fun _ => .next Machine.outcome_newScope_none
    (leads_of_ok (outcome_modify _ _) rfl)

theorem startWhile_transfers (kind : f.cell.token.kind = .keyword .while) :
    (startWhile f).Leads m (m.Transfers f) := by
  refine .next (outcome_get m) (.known fun body made => ?_)
  refine (looks_ofExcept _).leads fun line => (looks_ofExcept _).leads fun condition => ?_
  refine (beginLoop_leads _).bind ?_
  rintro _ _ rfl
  refine testLoop_settles.mono fun _ settles => ?_
  refine .loop (r := f.cell.ref) (.inl kind) ?_ (settles.jumps nofun)
  exact made

theorem startFor_transfers (kind : f.cell.token.kind = .keyword .for) :
    (startFor f).Leads m (m.Transfers f) := by
  refine .next (outcome_get m) ((looks_ofExcept _).leads fun line => ?_)
  refine (looks_ofExcept _).leads fun start => ?_
  simp only
  split
  · exact leads_stop
  · split
    · exact leads_stop
    · refine (looks_ofExcept _).leads fun enclosed => ?_
      split
      · exact leads_stop
      · split
        · refine .known fun body made => (beginLoop_leads _).bind ?_
          rintro _ _ rfl
          split
          · exact (workOnHeader_fetches _ _ _).mono fun _ fetches =>
              .loop (.inr kind) made fetches.jumps
          · exact testLoop_settles.mono fun _ settles =>
              .loop (.inr kind) made (settles.jumps nofun)
        · exact leads_stop

theorem define_transfers (kind : f.cell.token.kind = .keyword .define) :
    (define f).Leads m (m.Transfers f) := by
  refine .next (outcome_get m) ((looks_ofExcept _).leads fun line => ?_)
  refine (looks_ofExcept _).leads fun start => ?_
  simp only
  split
  · exact leads_stop
  · refine (looks_ofExcept _).leads fun enclosed => ?_
    split
    · exact leads_stop
    · refine (looks_ofExcept _).leads fun parameters => .known fun body made => ?_
      refine (looks_emit _).leads fun _ => ?_
      split
      · exact leads_stop
      · rename_i functions registered
        refine .next (outcome_modify _ m) ((looks_ofExcept _).leads fun after => ?_)
        exact (goTo_fetches after).mono fun _ fetches => .define kind made registered fetches

theorem bindParameters_declares (line : Nat) (params : List (Parameter × Value)) :
    (bindParameters line params).Leads m fun m' =>
      ∃ symbols, m.symbols.Declares params symbols ∧ m' = { m with symbols } := by
  induction params generalizing m with
  | nil => exact leads_of_ok (outcome_pure _ m) ⟨_, .nil _, rfl⟩
  | cons param params ih =>
      refine .next (outcome_get m) (.cause fun symbols added => .next (outcome_setSymbols _ m) ?_)
      refine ih.mono ?_
      rintro _ ⟨symbols', declares, rfl⟩
      exact ⟨symbols', .cons added declares, rfl⟩

theorem beginCall_transfers {inner rest : List Cell} {close : Cell}
    (kind : f.cell.token.kind = .bracket .call .opening)
    (split : Line.splitClose? .call 0 f.after = some (inner, close, rest)) :
    (beginCall f inner close).Leads m (m.Transfers f) := by
  unfold beginCall
  cases called : calleeBefore? f with
  | none => exact leads_stop
  | some callee =>
      obtain ⟨name, prev, named⟩ := Option.bind_eq_some_iff.1 called
      obtain ⟨word, kindName, same⟩ := Option.map_eq_some_iff.1 named
      subst same
      refine .next (outcome_get m) (.known fun args read => ?_)
      refine .cause fun function found => .cause fun _ checked => ?_
      refine .next (outcome_modify _ m) (.next Machine.outcome_newScope_none ?_)
      refine (bindParameters_declares _ _).bind ?_
      rintro _ m₁ ⟨symbols, declares, rfl⟩
      refine .next (outcome_get _) ((looks_emit _).leads fun _ =>
        (looks_ofExcept _).leads fun start => ?_)
      refine (goTo_fetches start).mono fun _ fetches => ?_
      exact .call kind split prev kindName read found checked declares fetches

theorem endCall_handsBack (value : Value) (line : Nat) :
    (endCall value line).Leads m (m.HandsBack value) := by
  refine .next (outcome_get m) ?_
  split
  · exact leads_stop
  · rename_i call calls own
    refine .next (outcome_modify _ m) ?_
    simp only
    split
    · exact leads_stop
    · refine .next (outcome_modify _ _) ((looks_emit _).leads fun _ u m' ran => ?_)
      obtain ⟨site, found⟩ := focus_of_returned ran
      exact (settles_returned found call.closeRef value).leads (.intro own found) u m' ran

theorem giveBack_transfers : (giveBack f).Leads m (m.Transfers f) := by
  unfold giveBack
  split
  · refine .next (outcome_pure _ m) ((endCall_handsBack .null _).mono fun _ back => ?_)
    exact .giveBack (.inl rfl) back
  · rename_i operand after
    refine .value fun value read => (endCall_handsBack value _).mono fun _ back => ?_
    exact .giveBack (.inr ⟨operand, by simp [Focus.cells, after], read⟩) back
  · exact .known fun value given => by cases given

theorem closeBlock_transfers (whole : f.cells = m.work.line.cells)
    (ends : endsLoop m m.work.index = true ∨ EndsFunction m f) :
    (closeBlock f).Leads m (m.Transfers f) := by
  refine .next (outcome_get m) ((settles_drop whole).leads_bind (.next (outcome_setSymbols _ _) ?_))
  refine (looks_emit _).leads fun _ => ?_
  split
  · rename_i last
    refine nextIteration_settles.mono fun _ settles => .iterate (settles.jumps ?_)
    intro none
    simp [endsLoop, show m.loops = [] from none] at last
  · rcases ends with last | ⟨-, -, call, innermost, here⟩
    · contradiction
    · split
      · rename_i none
        simp [none] at innermost
      · rename_i call' calls own
        obtain rfl : call' = call := by simpa [own] using innermost
        rw [if_pos here]
        split
        · exact leads_stop
        · exact (endCall_handsBack .null _).mono fun _ back => .finish back

theorem perform_transfers (whole : f.cells = m.work.line.cells) (passes : Passes m f) :
    (perform f).Leads m (m.Transfers f) := by
  have fetched {x : Action Unit} (leads : x.Leads m m.Fetches) : x.Leads m (m.Transfers f) :=
    leads.mono fun _ fetches => .jump fetches.jumps
  unfold perform
  cases passes with
  | keyword k kind control =>
      obtain ⟨notSystem, notBreak, notContinue⟩ := control
      rw [kind]
      cases k with
      | «if» => exact fetched branch_fetches
      | «else» => exact fetched passElse_fetches
      | «while» => exact startWhile_transfers kind
      | «for» => exact startFor_transfers kind
      | goto => exact jumpToLabel_jumps.mono fun _ jumps => .jump jumps
      | goback => exact jumpBack_jumps.mono fun _ jumps => .jump jumps
      | define => exact define_transfers kind
      | «return» => exact giveBack_transfers
      | system => contradiction
      | «break» => contradiction
      | «continue» => contradiction
  | call kind reached =>
      rw [kind]
      simp only [applyParen, Line.enclosed_eq kind, ofFault_ok_bind, reached]
      split
      · exact leads_stop
      · rename_i split_
        exact beginCall_transfers kind split_
  | iteration kind ends =>
      rw [kind]
      exact closeBlock_transfers whole (.inl ends)
  | ending ends =>
      rw [ends.1]
      exact closeBlock_transfers whole (.inr ends)

end Action

/-!
## Steps
-/

namespace Machine

/-- Nothing is left of the line but at most one token that never acts. -/
def Completes (m : Machine) : Prop :=
  m.work.line.cells = [] ∨ ∃ c, m.work.line.cells = [c] ∧ c.token.kind.isInert = true

inductive Does (m : Machine) : Machine → Prop where
  | rest (finished : m.finished = true) : m.Does m
  | conclude (selected : Option Ref) {m' : Machine} (completes : m.Completes)
      (settles : ({ m with
        work := { m.work with line := m.work.line.withCells [], selected } } :
          Machine).Settles m') :
      m.Does m'
  | edit {f : Focus} {m' : Machine} (acts : m.acting? = some f)
      (active : f.cell.token.kind.isInert = false) (stays : ¬ Action.Passes m f)
      (edits : ({ m with work := { m.work with selected := none } } : Machine).Edits f m') :
      m.Does m'
  | transfer {f : Focus} {m' : Machine} (acts : m.acting? = some f) (passes : Action.Passes m f)
      (transfers : ({ m with work := { m.work with selected := none } } : Machine).Transfers f m') :
      m.Does m'

theorem whole_of_acting {m : Machine} {f : Focus} (acts : m.acting? = some f) :
    f.cells = m.work.line.cells := by
  obtain ⟨r, -, located⟩ := Option.bind_eq_some_iff.1 acts
  exact Line.cells_focus? located

theorem cells_of_acting?_none {m : Machine} (none_ : m.acting? = none) :
    m.work.line.cells = [] := by
  cases picked : Action.choice? m.work with
  | none =>
      have unpicked : m.work.line.highest? = none := by
        unfold Action.choice? at picked
        simp only [Option.orElse_eq_orElse, Option.orElse_eq_or, Option.or_eq_none_iff] at picked
        exact picked.2
      unfold Line.highest? at unpicked
      split at unpicked
      · assumption
      · split at unpicked <;> cases unpicked
  | some r =>
      obtain ⟨f, found⟩ := Action.choice?_linked picked
      simp [acting?, picked, found] at none_

theorem passes_unselected {m : Machine} {f : Focus} :
    Action.Passes { m with work := { m.work with selected := none } } f ↔ Action.Passes m f := by
  constructor
  all_goals
    intro passes
    cases passes with
    | keyword k kind control => exact .keyword k kind control
    | call kind reached => exact .call kind reached
    | iteration kind ends => exact .iteration kind ends
    | ending ends => exact .ending ends

end Machine

namespace Action

variable {m : Machine} {f : Focus}

theorem act_does (acts : m.acting? = some f) :
    (act f).Leads { m with work := { m.work with selected := none } } m.Does := by
  have whole := Machine.whole_of_acting acts
  unfold act
  simp only
  split
  · rename_i inert
    split
    · exact leads_stop
    · rename_i alone
      obtain ⟨next, prev⟩ : f.next? = none ∧ f.prev? = none := by simpa using alone
      have single : m.work.line.cells = [f.cell] := by
        rw [← whole, Focus.cells, List.head?_eq_none_iff.1 next, List.head?_eq_none_iff.1 prev]
        rfl
      have removed := settles_drop (m := { m with work := { m.work with selected := none } }) whole
      rw [List.head?_eq_none_iff.1 next, List.head?_eq_none_iff.1 prev] at removed
      refine removed.leads_bind ((conclude_settles _).mono fun _ settles => ?_)
      exact .conclude none (.inr ⟨f.cell, single, inert⟩) settles
  · rename_i active
    refine .next (outcome_get _) ((looks_emit _).leads fun _ => ?_)
    by_cases passes : Passes m f
    · exact (perform_transfers (m := { m with work := { m.work with selected := none } }) whole
        (Machine.passes_unselected.2 passes)).mono fun _ transfers =>
        .transfer acts passes transfers
    · refine (perform_edits (m := { m with work := { m.work with selected := none } }) whole
        (mt Machine.passes_unselected.1 passes)).mono fun _ edits => ?_
      exact .edit acts (by simpa using active) passes edits

theorem conclude_does (empty : m.work.line.cells = []) (selected : Option Ref) :
    (conclude none).Leads { m with work := { m.work with selected } } m.Does := by
  have line : m.work.line.withCells [] = m.work.line := by rw [← empty]; rfl
  refine (conclude_settles none).mono fun m' settles => .conclude selected (.inl empty) ?_
  rw [line]
  exact settles

theorem step_does : step.Leads m m.Does := by
  refine .next (outcome_get m) ?_
  split
  · rename_i finished
    exact leads_of_ok (outcome_pure _ m) (.rest finished)
  · split
    · rename_i empty
      exact conclude_does (by simpa [Line.isEmpty] using empty) m.work.selected
    · refine .next (outcome_modify _ m) ?_
      split
      · rename_i unpicked
        exact conclude_does (Machine.cells_of_acting?_none
          (by simp [Machine.acting?, unpicked])) none
      · rename_i r picked
        refine .located fun f found => act_does ?_
        simp [Machine.acting?, picked, (Line.focus_ok_iff.1 found).1]

end Action

theorem Machine.does_of_next {m m' : Machine} (step : m.next = .ok m') : m.Does m' :=
  Action.step_does () m' (outcome_of_next rfl step)

end LineScript

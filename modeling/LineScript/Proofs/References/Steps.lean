import LineScript.Proofs.Effects.Steps
import LineScript.Proofs.References.Known

/-!
# What a step does to references

Only a name that the table of functions holds becomes a reference.  All other values are copied,
from a variable to a line or from a line to a variable, and lines are copies of those of the program
or of a caller.  So a step leaves a grounded machine grounded, and only a definition changes the
table, which it adds to.
-/

namespace LineScript

namespace Action

variable {m : Machine}

theorem assigned_grounded {symbols symbols' : Symbols} {fs : Functions} {op : Operator}
    {name : String} {declared : Option ValueType} {value : Value} (grounded : symbols.Grounded fs)
    (knows : fs.Knows value) (made : assigned symbols op name declared value = .ok symbols') :
    symbols'.Grounded fs := by
  unfold assigned at made
  split at made
  · split at made
    · cases made
    · exact grounded.add knows made
  · split at made
    · exact grounded.update knows made
    · exact grounded.add knows made

theorem admits_expansion (fs : Functions) {k : TokenKind} {segments : List Template.Segment}
    (member : k ∈ Template.expansion segments) : fs.Admits k := by
  rcases mem_intersperse member with rfl | operand
  · trivial
  · unfold Template.operands at operand
    split at operand <;>
    · rcases List.mem_cons.1 operand with rfl | later
      · trivial
      · obtain ⟨s, -, rfl⟩ := List.mem_map.1 later
        cases s <;> trivial

theorem readArguments_known (grounded : m.Grounded) {close : Cell} {read args : List Value}
    {expecting : Bool} {cells : List Cell} (covers : m.functions.Covers cells)
    (known : ∀ v ∈ read, m.functions.Knows v)
    (found : readArguments m close read expecting cells = .ok args) :
    ∀ v ∈ args, m.functions.Knows v := by
  induction cells generalizing read expecting with
  | nil =>
      simp only [readArguments] at found
      split at found
      · cases found
      · cases found
        exact known
  | cons c cs ih =>
      obtain ⟨admits, covers⟩ := Functions.covers_cons.1 covers
      simp only [readArguments] at found
      split at found
      · exact ih covers known found
      · split at found
        · cases value : m.valueOf c.token with
          | error stop => simp [value] at found
          | ok v =>
              simp only [value, Except.bind_eq_bind, Except.bind_ok] at found
              refine ih covers ?_ found
              exact List.forall_mem_append.2
                ⟨known, List.forall_mem_singleton.2 (grounded.valueOf admits value)⟩
        · cases found

end Action

theorem Symbols.Takes.grounded {s s' : Symbols} {value : Value} {fs : Functions}
    (takes : s.Takes value s') (grounded : s.Grounded fs) (knows : fs.Knows value) :
    s'.Grounded fs := by
  rcases takes with rfl | ⟨op, name, declared, made⟩
  · exact grounded
  · exact Action.assigned_grounded grounded knows made

theorem Symbols.Declares.grounded {s s' : Symbols} {params : List (Parameter × Value)}
    {fs : Functions} (declares : s.Declares params s') (grounded : s.Grounded fs)
    (known : ∀ p ∈ params, fs.Knows p.2) : s'.Grounded fs := by
  induction declares with
  | nil s => exact grounded
  | cons added others ih =>
      obtain ⟨first, rest⟩ := List.forall_mem_cons.1 known
      exact ih (grounded.add first added) rest

theorem Functions.Underlie.trans {fs : Functions} {m m' : Machine} (first : fs.Underlie m)
    (second : m.functions.Underlie m') : fs.Underlie m' :=
  ⟨second.grounded, first.within.trans second.within⟩

namespace Machine

variable {m m' : Machine} {f : Focus}

/-!
Moves of control copy lines of the program.
-/

theorem Fetches.underlaid (fetches : m.Fetches m') (grounded : m.Grounded) :
    m.functions.Underlie m' := by
  cases fetches with
  | copy found cells _ _ _ =>
      have covers := grounded.program _ (List.mem_of_getElem? found)
      exact ⟨grounded.withWork (covers.subset cells.subset), .refl _⟩
  | halt =>
      refine ⟨?_, .refl _⟩
      exact ⟨grounded.program, grounded.symbols, Functions.covers_nil, grounded.saved⟩

theorem Unwinds.underlaid (unwinds : m.Unwinds m') (grounded : m.Grounded) :
    m.functions.Underlie m' := by
  cases unwinds
  refine ⟨?_, .refl _⟩
  exact ⟨grounded.program, grounded.symbols.popMany _, grounded.work, grounded.saved⟩

theorem Jumps.underlaid (jumps : m.Jumps m') (grounded : m.Grounded) : m.functions.Underlie m' := by
  obtain ⟨unwinds, fetches⟩ := jumps
  have unwound := unwinds.underlaid grounded
  exact unwound.trans (fetches.underlaid unwound.grounded)

theorem Settles.underlaid (settles : m.Settles m') (grounded : m.Grounded) :
    m.functions.Underlie m' := by
  rcases settles with ⟨-, rfl⟩ | jumps
  · exact ⟨grounded, .refl _⟩
  · exact jumps.underlaid grounded

/-!
Operators and built-in functions make no reference.
-/

theorem Produces.knows {value : Value} (produced : m.Produces f value) (grounded : m.Grounded)
    (seen : m.functions.Covers f.cells) : m.functions.Knows value := by
  cases produced with
  | token member read => exact grounded.valueOf (seen _ member) read
  | between made => exact m.functions.knows_of_type (Operator.plain_applyBetween _ _ _ _ made)
  | before made => exact m.functions.knows_of_type (Operator.plain_applyBefore _ _ _ made)
  | builtin made => exact m.functions.knows_of_type (Builtin.plain_run made)

theorem Edits.underlaid (edits : m.Edits f m') (grounded : m.Grounded)
    (seen : m.functions.Covers f.cells) : m.functions.Underlie m' := by
  -- None of the edits changes the program, the functions or the calls.
  have edited {symbols : Symbols} {line : Line} (known : symbols.Grounded m.functions)
      (covers : m.functions.Covers line.cells) (blocks : List Block) (nextId : Nat) (sink : Sink) :
      m.functions.Underlie
        { m with symbols, blocks, nextId, sink, work := { m.work with line } } :=
    ⟨⟨grounded.program, known, covers, grounded.saved⟩, .refl _⟩
  have before := Functions.covers_reverse.2 seen.before
  cases edits with
  | answer used cells member produced takes =>
      have knows := produced.knows grounded seen
      refine edited (takes.grounded grounded.symbols knows) ?_ _ _ _
      rw [cells] at seen
      obtain ⟨front, back⟩ := Functions.covers_append.1 seen
      refine Functions.covers_append.2 ⟨(Functions.covers_append.1 front).1, ?_⟩
      exact Functions.covers_cons.2 ⟨knows, back⟩
  | wait kind below =>
      refine edited grounded.symbols ?_ _ _ _
      exact Functions.covers_append.2 ⟨before, Functions.covers_cons.2 ⟨seen.cell, seen.after⟩⟩
  | @declare type name symbols kind added =>
      have other : type ≠ .function := by
        have admits := seen.cell
        rwa [kind] at admits
      have knows : m.functions.Knows type.default :=
        m.functions.knows_of_type (by rwa [Value.type_default])
      exact edited (grounded.symbols.add knows added) seen.around _ _ _
  | expand kind read =>
      refine edited grounded.symbols ?_ _ _ _
      refine Functions.covers_append.2 ⟨Functions.covers_append.2 ⟨before, ?_⟩, seen.after⟩
      intro c hc
      have member := List.mem_map_of_mem (f := fun c : Cell => c.token.kind) hc
      rw [Action.map_kind_chainCells] at member
      exact Action.admits_expansion m.functions member
  | clear kind => exact edited grounded.symbols Functions.covers_nil _ _ _
  | signal signal =>
      refine edited grounded.symbols ?_ _ _ _
      exact Functions.covers_cons.2 ⟨trivial, Functions.covers_nil⟩
  | reach kind first split =>
      obtain ⟨inside, outside⟩ := Functions.covers_append.1
        (Line.splitClose?_append split ▸ seen.after)
      refine edited grounded.symbols (Functions.covers_append.2 ⟨before, ?_⟩) _ _ _
      refine Functions.covers_cons.2 ⟨seen.cell, Functions.covers_append.2 ⟨?_, outside⟩⟩
      intro c hc
      rcases Line.mem_boostUntil hc with old | ⟨d, hd, rfl⟩
      · exact inside c old
      · exact inside d hd
  | unwrap kind split =>
      obtain ⟨inside, outside⟩ := Functions.covers_append.1
        (Line.splitClose?_append split ▸ seen.after)
      refine edited grounded.symbols (Functions.covers_append.2 ⟨before, ?_⟩) _ _ _
      exact Functions.covers_cons.2 ⟨(Functions.covers_cons.1 inside).1,
        (Functions.covers_cons.1 outside).2⟩
  | openBlock kind =>
      refine edited (show m.symbols.push.Grounded m.functions from grounded.symbols) ?_ _ _ _
      exact seen.around
  | closeBlock kind => exact edited grounded.symbols.pop seen.around _ _ _

/-!
Calls save lines and come back to them.
-/

theorem HandsBack.underlaid {value : Value} (back : m.HandsBack value m') (grounded : m.Grounded)
    (knows : m.functions.Knows value) : m.functions.Underlie m' := by
  obtain @⟨call, calls, site, own, found⟩ := back
  have saved : m.functions.Covers call.saved.line.cells :=
    grounded.saved call (own ▸ List.mem_cons_self)
  rw [← (Line.focus_ok found).1] at saved
  refine ⟨⟨grounded.program, grounded.symbols.unwind _, ?_, ?_⟩, .refl _⟩
  · refine Functions.covers_append.2 ⟨Functions.covers_reverse.2 saved.before, ?_⟩
    refine Functions.covers_cons.2 ⟨knows, saved.after.subset ?_⟩
    exact ((List.drop_sublist 1 _).trans (List.dropWhile_sublist _)).subset
  · exact fun c member => grounded.saved c (own ▸ List.mem_cons_of_mem _ member)

theorem Transfers.underlaid (transfers : m.Transfers f m') (grounded : m.Grounded)
    (seen : m.functions.Covers f.cells) : m.functions.Underlie m' := by
  have closed (cells : List Cell) (covers : m.functions.Covers cells) :
      (({ m with symbols := m.symbols.pop } : Machine).withCells cells).Grounded :=
    ⟨grounded.program, grounded.symbols.pop, covers, grounded.saved⟩
  cases transfers with
  | jump jumps => exact jumps.underlaid grounded
  | loop _ _ jumps =>
      exact jumps.underlaid ⟨grounded.program, grounded.symbols, grounded.work, grounded.saved⟩
  | iterate jumps => exact jumps.underlaid (closed _ seen.around)
  | @define _ functions _ _ _ _ registered fetches =>
      -- All that is grounded stays so when the table grows.
      have within := Functions.within_register registered
      have grown : ({ m with functions } : Machine).Grounded :=
        ⟨fun line member => (grounded.program line member).mono within,
          fun b member => (grounded.symbols b member).mono within, grounded.work.mono within,
          fun call member => (grounded.saved call member).mono within⟩
      have fetched := fetches.underlaid grown
      exact ⟨fetched.grounded, within.trans fetched.within⟩
  | call _ split _ _ read _ _ declares fetches =>
      obtain ⟨inside, -⟩ := Functions.covers_append.1 (Line.splitClose?_append split ▸ seen.after)
      have known := Action.readArguments_known grounded inside (List.forall_mem_nil _) read
      refine fetches.underlaid ⟨grounded.program, ?_, Functions.covers_nil, ?_⟩
      · exact declares.grounded grounded.symbols fun p member =>
          known p.2 (List.of_mem_zip member).2
      · exact List.forall_mem_cons.2 ⟨grounded.work, grounded.saved⟩
  | giveBack given back =>
      refine back.underlaid grounded ?_
      rcases given with rfl | ⟨c, member, read⟩
      · exact m.functions.knows_null
      · exact grounded.valueOf (seen c member) read
  | finish back => exact back.underlaid (closed _ seen.around) m.functions.knows_null

theorem Grounded.next (grounded : m.Grounded) (step : m.next = .ok m') :
    m.functions.Underlie m' := by
  have unselected : ({ m with work := { m.work with selected := none } } : Machine).Grounded :=
    grounded.withWork grounded.work
  cases does_of_next step with
  | rest _ => exact ⟨grounded, .refl _⟩
  | conclude _ _ settles => exact settles.underlaid (grounded.withWork Functions.covers_nil)
  | edit acts _ _ edits =>
      exact edits.underlaid unselected (whole_of_acting acts ▸ grounded.work)
  | transfer acts _ transfers =>
      exact transfers.underlaid unselected (whole_of_acting acts ▸ grounded.work)

end Machine

end LineScript

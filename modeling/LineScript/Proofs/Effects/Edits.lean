import LineScript.Proofs.Effects.Moves

/-!
# Edits of a line

A token that does not pass control on changes its line, and perhaps variables and what is printed
(`Machine.Edits`).
-/

namespace LineScript

/-!
## Edits of a line
-/

def Symbols.Takes (s : Symbols) (value : Value) (s' : Symbols) : Prop :=
  s' = s ∨ ∃ op name declared, Action.assigned s op name declared value = .ok s'

theorem Symbols.Takes.grows {s s' : Symbols} {value : Value} (takes : s.Takes value s') :
    s.Grows s' := by
  rcases takes with rfl | ⟨op, name, declared, made⟩
  · exact .refl _
  · exact Action.assigned_grows made

namespace Machine

inductive Produces (m : Machine) (f : Focus) : Value → Prop where
  | token {c : Cell} {v : Value} (member : c ∈ f.cells) (read : m.valueOf c.token = .ok v) :
      m.Produces f v
  | between {op : Operator} {a b v : Value} (made : op.applyBetween a b = .ok v) : m.Produces f v
  | before {op : Operator} {a v : Value} (made : op.applyBefore a = .ok v) : m.Produces f v
  | builtin {name : String} {args : List Value} {v : Value}
      (made : (Builtin.run name m.properties args m.sink).2 = .ok (some v)) : m.Produces f v

/-- The token in focus changes its line, and control stays where it is. -/
inductive Edits (m : Machine) (f : Focus) : Machine → Prop where
  /-- A value takes the place of the token and of cells beside it. -/
  | answer {before after : List Cell} (used : List Cell) {value : Value} {symbols : Symbols}
      {sink : Sink} (cells : f.cells = before ++ used ++ after) (member : f.cell ∈ used)
      (produced : m.Produces f value) (takes : m.symbols.Takes value symbols) :
      m.Edits f
        (({ m with symbols, sink, nextId := m.nextId + 1 } : Machine).withCells
          (before ++ { f.cell with token := .literal value m.nextId f.cell.token.line } :: after))
  /-- A negation waits for a power. -/
  | wait {op : Operator} {priority : Int} (kind : f.cell.token.kind = .operator op)
      (below : Action.waitsBelow? f op = some priority) :
      m.Edits f (m.withCells
        ({ f with cell := { f.cell with token := { f.cell.token with priority } } } : Focus).cells)
  | declare {type : ValueType} {name : String} {symbols : Symbols}
      (kind : f.cell.token.kind = .type type)
      (added : m.symbols.add name type type.default .declaration = .ok symbols) :
      m.Edits f (({ m with symbols } : Machine).withCells (f.before.reverse ++ f.after))
  | expand {template : String} {segments : List Template.Segment} {priority : Int}
      (kind : f.cell.token.kind = .template template)
      (read : Template.segments template = .ok segments) :
      m.Edits f
        { m with
          nextId := m.nextId + (Template.expansion segments).length
          work :=
            { m.work with
              line :=
                { cells := f.before.reverse ++ Action.chainCells f.cell.token.line priority
                    m.work.line.nextRef m.nextId (Template.expansion segments) ++ f.after
                  nextRef := m.work.line.nextRef + (Template.expansion segments).length } } }
  /-- A built-in function has no result. -/
  | clear {sink : Sink} (kind : f.cell.token.kind = .keyword .system) :
      m.Edits f (({ m with sink } : Machine).withCells [])
  | signal (signal : Signal) :
      m.Edits f
        { m with
          nextId := m.nextId + 1
          work :=
            { m.work with
              line := m.work.line.clear.append
                (Token.new (.signal signal) m.nextId f.cell.token.line) } }
  /-- A parenthesis is reached for the first time. -/
  | reach {b : Bracket} {inner rest : List Cell} {close : Cell}
      (kind : f.cell.token.kind = .bracket b .opening) (first : f.cell.token.expanded = false)
      (split : Line.splitClose? b 0 f.after = some (inner, close, rest)) :
      m.Edits f (m.withCells (f.before.reverse ++
        { f.cell with token := { f.cell.token with expanded := true } } ::
          (Line.boostUntil close.ref Priority.boost inner ++ close :: rest)))
  | unwrap {b : Bracket} {c close : Cell} {rest : List Cell}
      (kind : f.cell.token.kind = .bracket b .opening)
      (split : Line.splitClose? b 0 f.after = some ([c], close, rest)) :
      m.Edits f (m.withCells (f.before.reverse ++ c :: rest))
  | openBlock (kind : f.cell.token.kind = .openBrace) :
      m.Edits f
        (({ m with
          symbols := m.symbols.push
          blocks := m.keptBlocks ++ [{ depth := m.symbols.depth + 1, brace := m.positionOf f.cell }]
          } : Machine).withCells (f.before.reverse ++ f.after))
  | closeBlock (kind : f.cell.token.kind = .closeBrace) :
      m.Edits f (({ m with symbols := m.symbols.pop } : Machine).withCells
        (f.before.reverse ++ f.after))

end Machine

/-- The token passes control on: it jumps, enters or leaves a loop or begins its next iteration,
makes a call, or returns from one. -/
inductive Action.Passes (m : Machine) (f : Focus) : Prop where
  | keyword (k : Keyword) (kind : f.cell.token.kind = .keyword k)
      (control : k ≠ .system ∧ k ≠ .break ∧ k ≠ .continue)
  | call (kind : f.cell.token.kind = .bracket .call .opening)
      (reached : f.cell.token.expanded = true)
  | iteration (kind : f.cell.token.kind = .closeBrace) (ends : endsLoop m m.work.index = true)
  | ending (ends : EndsFunction m f)

namespace Action

variable {m : Machine} {f : Focus}

theorem answer_edits {x : Action Unit} {before after : List Cell} (used : List Cell) {value : Value}
    {symbols : Symbols} {sink : Sink}
    (answered : Settles Line.Distinct x { m with symbols, sink }
      (({ m with symbols, sink } : Machine).onLine
        (before ++ f.cell.answered value m.nextId :: after) 1))
    (cells : f.cells = before ++ used ++ after) (member : f.cell ∈ used)
    (produced : m.Produces f value) (takes : m.symbols.Takes value symbols) :
    x.Leads { m with symbols, sink } (m.Edits f) :=
  answered.leads (.answer used cells member produced takes)

section

variable (whole : f.cells = m.work.line.cells)

include whole

theorem applyBinary_edits (op : Operator) : (applyBinary f op).Leads m (m.Edits f) := by
  refine .operand fun left prev => .operand fun right next => ?_
  refine (looks_valueOf _).leads fun a => (looks_valueOf _).leads fun b => ?_
  refine .cause fun result made => (looks_emit _).leads fun _ => ?_
  refine answer_edits [left, f.cell, right] (settles_between whole prev next result) ?_ (by simp)
    (.between made) (.inl rfl)
  rw [Focus.cells, Focus.eq_of_prev? prev, Focus.eq_of_next? next]
  simp

theorem applyUnary_edits {op : Operator} (kind : f.cell.token.kind = .operator op) :
    (applyUnary f op).Leads m (m.Edits f) := by
  refine .operand fun operand next => ?_
  split
  · rename_i priority waits
    refine (looks_emit _).leads fun _ => ?_
    exact (settles_wait whole priority).leads (.wait kind waits)
  · refine (looks_valueOf _).leads fun v => .cause fun result made => ?_
    refine answer_edits [f.cell, operand] (settles_before whole next result) ?_ (by simp)
      (.before made) (.inl rfl)
    rw [Focus.cells, Focus.eq_of_next? next]
    simp

omit whole in
theorem Leads.value {β : Type} {c : Cell} {g : Value → Action β} {Q : Machine → Prop}
    (rest : ∀ v, m.valueOf c.token = .ok v → (g v).Leads m Q) : (valueOf c >>= g).Leads m Q := by
  intro b m' ran
  obtain ⟨v, m₁, looked, ran₁⟩ := outcome_bind_ok ran
  obtain ⟨found, rfl⟩ := valueOf_ok looked
  exact rest v found b m' ran₁

theorem assign_edits (op : Operator) : (assign f op).Leads m (m.Edits f) := by
  unfold assign
  split
  · exact leads_stop
  · rename_i name declared before target
    simp only
    obtain ⟨used, onLeft, -⟩ := assignmentTarget?_append target
    refine .operand fun source next => .value fun operand read => .next (outcome_get m) ?_
    have cells : f.cells =
        before.reverse ++ (used.reverse ++ [f.cell, source]) ++ f.after.tail := by
      rw [Focus.cells, onLeft, Focus.eq_of_next? next]
      simp
    -- A compound assignment applies its operation first; the rest is the same for all.
    have finish (value : Value) (produced : m.Produces f value) : (do
        let symbols ← ofCause f.cell.token.line (assigned m.symbols op name declared value)
        setSymbols symbols
        emit (.assigned name value)
        if declared.isSome then removeEach (f.before.tail.take 1)
        answer f.cell.ref value
        removeEach (f.before.take 1)
        remove source.ref : Action Unit).Leads m (m.Edits f) := by
      refine .cause fun symbols made => .next (outcome_setSymbols _ m)
        ((looks_emit _).leads fun _ => ?_)
      refine answer_edits _ ?_ cells (by simp) produced (.inr ⟨op, name, declared, made⟩)
      exact settles_assigned (m := { m with symbols }) whole target next value
    cases op.operation? with
    | none => exact finish operand (.token (by rw [cells]; simp) read)
    | some base =>
      refine .cause fun value made => finish value ?_
      cases bound : m.symbols.lookup name with
      | error cause => simp [bound] at made
      | ok v =>
          rw [bound] at made
          exact .between made

theorem declare_edits {type : ValueType} (kind : f.cell.token.kind = .type type) :
    (declare f type).Leads m (m.Edits f) := by
  unfold declare
  split
  · refine .next (outcome_get m) (.cause fun symbols added => .next (outcome_setSymbols _ m) ?_)
    exact (settles_drop (m := { m with symbols }) whole).leads (.declare kind added)
  · exact leads_stop

theorem expandTemplate_edits {template : String} (kind : f.cell.token.kind = .template template) :
    (expandTemplate f template).Leads m (m.Edits f) :=
  .cause fun _ read => (settles_expanded whole _ _).leads (.expand kind read)

theorem callBuiltin_edits (kind : f.cell.token.kind = .keyword .system) :
    (callBuiltin f).Leads m (m.Edits f) := by
  unfold callBuiltin
  split
  · exact leads_stop
  · rename_i target following ahead
    split
    · exact leads_stop
    · refine .next (outcome_get m) (.known fun read made => ?_)
      obtain ⟨args, rest⟩ := read
      obtain ⟨used, onRight, -⟩ := builtinArguments_append made
      refine .next (outcome_modify _ m) (.cause fun result made => (looks_emit _).leads fun _ => ?_)
      split
      · rename_i value
        have consumed (sink : Sink) := settles_read (m := { m with sink }) whole ahead onRight value
        refine answer_edits (f.cell :: target :: used) (consumed _) ?_
          (by simp) (.builtin made) (.inl rfl)
        rw [Focus.cells, ahead, onRight]
        simp
      · exact leads_of_ok rfl (.clear kind)

theorem openBlock_edits (kind : f.cell.token.kind = .openBrace) :
    (openBlock f).Leads m (m.Edits f) :=
  .next (outcome_get m) ((settles_drop whole).leads_bind
    (leads_of_ok (Machine.outcome_newScope_block _) (.openBlock kind)))

theorem closeBlock_edits (kind : f.cell.token.kind = .closeBrace)
    (inside : endsLoop m m.work.index = false) (own : ¬ EndsFunction m f) :
    (closeBlock f).Leads m (m.Edits f) := by
  refine .next (outcome_get m) ((settles_drop whole).leads_bind (.next (outcome_setSymbols _ _) ?_))
  refine (looks_emit _).leads fun _ => ?_
  rw [if_neg (by simp [inside])]
  split
  · exact leads_of_ok (outcome_pure _ _) (.closeBlock kind)
  · rename_i call calls active
    split
    · rename_i here
      exact absurd ⟨kind, inside, call, by rw [active]; rfl, here⟩ own
    · exact leads_of_ok (outcome_pure _ _) (.closeBlock kind)

theorem applyParen_edits {b : Bracket} (kind : f.cell.token.kind = .bracket b .opening)
    (uncalled : b = .call → f.cell.token.expanded = false) :
    (applyParen f b).Leads m (m.Edits f) := by
  rw [applyParen, Line.enclosed_eq kind, ofFault_ok_bind]
  split
  · exact leads_stop
  · rename_i inner close rest split_
    have ahead := (Line.splitClose?_append split_).symm
    split
    · rename_i fresh
      exact (settles_reached whole ahead).leads (.reach kind (by simpa using fresh) split_)
    · rename_i reached
      rw [if_neg (by
        intro call
        simp [uncalled call] at reached)]
      split
      · exact leads_stop
      · split
        · exact (settles_unwrapped whole ahead).leads (.unwrap kind split_)
        · exact leads_stop
      · exact leads_stop

theorem perform_edits (stays : ¬ Passes m f) : (perform f).Leads m (m.Edits f) := by
  unfold perform
  split
  · rename_i kind
    exact openBlock_edits whole kind
  · rename_i kind
    apply closeBlock_edits whole kind
    · cases ends : endsLoop m m.work.index with
      | true => exact absurd (.iteration kind ends) stays
      | false => rfl
    · exact fun ends => stays (.ending ends)
  · rename_i b _ kind
    apply applyParen_edits whole kind
    rintro rfl
    cases reached : f.cell.token.expanded with
    | true => exact absurd (.call kind reached) stays
    | false => rfl
  · rename_i op kind
    split
    · exact assign_edits whole op
    · split
      · exact applyUnary_edits whole kind
      · exact applyBinary_edits whole op
  · rename_i type kind
    exact declare_edits whole kind
  · rename_i template kind
    exact expandTemplate_edits whole kind
  · rename_i keyword kind
    cases keyword with
    | system => exact callBuiltin_edits whole kind
    | «break» => exact leads_of_ok (outcome_modify _ m) (.signal .break)
    | «continue» => exact leads_of_ok (outcome_modify _ m) (.signal .continue)
    | _ => exact absurd (.keyword _ kind ⟨nofun, nofun, nofun⟩) stays
  · exact leads_stop

end

end Action

end LineScript

import LineScript.Proofs.Branches.Selection

/-!
# Templates are interpolated

A template that acts becomes a sum.  Its operators have a higher priority than all that the template
competed with, so the steps that follow add up the sum from the left and touch nothing else; its
first operand is a string, so every partial sum is one.  What is left is one string in the place of
the template (`Machine.template_interpolates`), unless a placeholder names nothing.
-/

namespace LineScript

/-- The priority of the operators of the sum that the template becomes. -/
def Token.sumPriority (t : Token) : Int :=
  Priority.additive + (t.priority - Priority.template) + Priority.boost

theorem Token.lt_sumPriority (t : Token) : t.priority < t.sumPriority := by
  simp only [sumPriority, Priority.additive, Priority.template, Priority.boost]
  omega

namespace Template

def Segment.Bound (m : Machine) : Segment → Prop
  | .text _ => True
  | .name x => m.symbols.contains x = true ∨ m.functions.contains x = true

/-- What a segment comes to: its text, or that of the value that it names. -/
def Segment.textIn (m : Machine) : Segment → String
  | .text s => s
  | .name x => ((m.value? x).getD (.function x)).text

def firstText : List Segment → String
  | .text s :: _ => s
  | _ => ""

def added : List Segment → List Segment
  | .text _ :: rest => rest
  | segments => segments

def terms (segments : List Segment) : List TokenKind :=
  segments.flatMap fun s => [.operator .add, s.kind]

theorem operands_eq (segments : List Segment) :
    operands segments = .literal (.string (firstText segments)) ::
      (added segments).map Segment.kind := by
  match segments with
  | [] => rfl
  | .text _ :: _ => rfl
  | .name _ :: _ => rfl

theorem intersperse_eq (k : TokenKind) (segments : List Segment) :
    (k :: segments.map Segment.kind).intersperse (.operator .add) = k :: terms segments := by
  induction segments generalizing k with
  | nil => rfl
  | cons s segments ih =>
      rw [List.map_cons, List.intersperse_cons_cons, ih]
      rfl

theorem expansion_eq (segments : List Segment) :
    expansion segments = .literal (.string (firstText segments)) :: terms (added segments) := by
  rw [expansion, operands_eq, intersperse_eq]

theorem join_added (m : Machine) (segments : List Segment) :
    firstText segments ++ String.join ((added segments).map (Segment.textIn m)) =
      String.join (segments.map (Segment.textIn m)) := by
  match segments with
  | [] => rfl
  | .text _ :: _ => simp [firstText, added, Segment.textIn]
  | .name _ :: _ => simp [firstText, added]

theorem added_subset (segments : List Segment) : added segments ⊆ segments := by
  match segments with
  | [] => exact List.Subset.refl _
  | .text _ :: rest => exact List.subset_cons_self _ rest
  | .name _ :: _ => exact List.Subset.refl _

theorem added_name (left : List Segment) (name : String) (right : List Segment) :
    added (left ++ .name name :: right) = added left ++ .name name :: right := by
  match left with
  | [] => rfl
  | .text _ :: _ => rfl
  | .name _ :: _ => rfl

theorem chainCells_terms (line : Nat) (priority : Int) (r : Ref) (id : Nat) (s : Segment)
    (segments : List Segment) :
    Action.chainCells line priority r id (terms (s :: segments)) =
      ⟨r, { Token.new (.operator .add) id line with priority }⟩ ::
        ⟨r + 1, Token.new s.kind (id + 1) line⟩ ::
        Action.chainCells line priority (r + 2) (id + 2) (terms segments) := by
  cases s <;> rfl

theorem priority_terms {line id : Nat} {priority : Int} {r : Ref} {segments : List Segment}
    {c : Cell} (member : c ∈ Action.chainCells line priority r id (terms segments)) :
    c.token.priority = priority ∨ c.token.priority = Priority.inert := by
  induction segments generalizing r id with
  | nil => cases member
  | cons s segments ih =>
      rcases List.mem_cons.1 member with rfl | member
      · exact .inl rfl
      · rcases List.mem_cons.1 member with rfl | member
        · cases s <;> exact .inr rfl
        · exact ih member

end Template

open Template (Segment)

namespace Machine

variable {m m' : Machine} {f : Focus} {s : String} {segments : List Segment}

theorem valueOf_segment {seg : Segment} (bound : seg.Bound m) (id line : Nat) :
    ∃ v, m.valueOf (Token.new seg.kind id line) = .ok v ∧ v.text = seg.textIn m := by
  cases seg with
  | text s => exact ⟨.string s, rfl, rfl⟩
  | name name =>
      simp only [valueOf, Token.new, Segment.kind, valueOfName, Segment.textIn, value?]
      cases found : m.symbols.get? name with
      | some v => exact ⟨v.value, rfl, rfl⟩
      | none =>
          have defined : m.functions.contains name = true := by
            simpa [Segment.Bound, Symbols.contains, found] using bound
          exact ⟨.function name, by simp [defined], rfl⟩

theorem valueOf_unbound {name : String} (unbound : ¬ (Segment.name name).Bound m) (id line : Nat) :
    m.valueOf (Token.new (.name name) id line) = .error (.at line (.undeclared name)) := by
  simp only [Segment.Bound, not_or, Bool.not_eq_true] at unbound
  have absent : m.symbols.get? name = none := by simpa [Symbols.contains] using unbound.1
  simp [valueOf, Token.new, valueOfName, absent, unbound.2]

/-- The template is the leftmost token of the highest priority in a line that no brace starts, and
its sum is above the tokens that never act. -/
structure TopTemplate (f : Focus) : Prop where
  chosen : f.Chosen
  noBrace : ∀ c, f.cells.head? = some c → c.token.kind.isScopeBracket = false
  high : Priority.inert < f.cell.token.sumPriority

structure Sums (m : Machine) (f : Focus) (s : String) (segments : List Segment) : Prop where
  ready : m.Ready
  sum : ∃ first id r id', first.token = .literal (.string s) id f.cell.token.line ∧
    m.work.line.cells = f.before.reverse ++ (first :: Action.chainCells f.cell.token.line
      f.cell.token.sumPriority r id' (Template.terms segments)) ++ f.after

/-- The token that acts is the first operator of a sum in the place of a template, and what stands
on its left is a string. -/
def AddsFor (f : Focus) (m : Machine) : Prop :=
  ∃ left plus rest s, m.acting? = some ⟨left :: f.before, plus, rest ++ f.after⟩ ∧
    left.token.kind = .literal (.string s) ∧ plus.token.kind = .operator .add

theorem acting?_chosen (ready : m.Ready) (same : f.cells = m.work.line.cells)
    (noBrace : ∀ c, m.work.line.cells.head? = some c → c.token.kind.isScopeBracket = false)
    (chosen : f.Chosen) : m.acting? = some f := by
  rw [acting?, choice?_chosen ready.unselected same noBrace chosen, Option.bind_some]
  exact Line.focus?_eq_some ready.distinct same

theorem TopTemplate.sum_chosen (top : TopTemplate f) {first plus : Cell} {rest : List Cell}
    (never : first.token.priority = Priority.inert)
    (own : plus.token.priority = f.cell.token.sumPriority)
    (others : ∀ c ∈ rest, c.token.priority = f.cell.token.sumPriority ∨
    c.token.priority = Priority.inert) :
    Focus.Chosen ⟨first :: f.before, plus, rest ++ f.after⟩ := by
  have high := top.high
  have above := f.cell.token.lt_sumPriority
  constructor
  · intro c member
    rw [own]
    rcases List.mem_cons.1 member with rfl | member
    · rw [never]
      exact high
    · exact Int.lt_trans (top.chosen.left c member) above
  · intro c member
    rw [own]
    rcases List.mem_append.1 member with member | member
    · rcases others c member with same | same <;> omega
    · exact Int.le_trans (top.chosen.right c member) (Int.le_of_lt above)

theorem TopTemplate.noBrace_sum (top : TopTemplate f) {first : Cell} {rest : List Cell}
    (operand : first.token.kind.isOperand = true) :
    ∀ c, (f.before.reverse ++ first :: rest).head? = some c →
      c.token.kind.isScopeBracket = false := by
  intro c head
  cases front : f.before.reverse with
  | nil =>
      rw [front] at head
      obtain rfl : first = c := Option.some.inj head
      cases kind : first.token.kind with
      | bracket b side => simp [kind, TokenKind.isOperand] at operand
      | _ => rfl
  | cons d front' =>
      rw [front] at head
      exact top.noBrace c (by rw [Focus.cells, front]; exact head)

/-- The first operator of a sum acts: it adds the value of the next segment to the string. -/
theorem Sums.step {seg : Segment} (sums : m.Sums f s (seg :: segments)) (top : TopTemplate f) :
    m.AddsFor f ∧ ∃ id,
      (∀ stop, m.valueOf (Token.new seg.kind id f.cell.token.line) = .error stop →
        m.next = .error stop) ∧
      ∀ v, m.valueOf (Token.new seg.kind id f.cell.token.line) = .ok v →
        ∃ cells, m.next = .ok (m.onLine cells 1) ∧
          (m.onLine cells 1).Sums f (s ++ v.text) segments := by
  obtain ⟨first, id, r, id', token, cells⟩ := sums.sum
  rw [Template.chainCells_terms] at cells
  generalize others : Action.chainCells _ _ (r + 2) (id' + 2)
    (Template.terms segments) = rest at cells
  let plus : Cell :=
    { ref := r
      token := { Token.new (.operator .add) id' f.cell.token.line with
        priority := f.cell.token.sumPriority } }
  let next : Cell := ⟨r + 1, Token.new seg.kind (id' + 1) f.cell.token.line⟩
  have operand : first.token.kind.isOperand = true := by rw [token]; rfl
  have whole : Focus.cells ⟨first :: f.before, plus, next :: rest ++ f.after⟩ =
    m.work.line.cells := by
    rw [cells]
    simp [Focus.cells, plus, next]
  have noBrace : ∀ c, m.work.line.cells.head? = some c → c.token.kind.isScopeBracket = false := by
    rw [cells, List.append_assoc]
    exact top.noBrace_sum operand
  have chosen : Focus.Chosen ⟨first :: f.before, plus, next :: rest ++ f.after⟩ := by
    apply top.sum_chosen (by rw [token]; rfl) rfl
    intro c member
    rcases List.mem_cons.1 member with rfl | member
    · cases seg <;> exact .inr rfl
    · rw [← others] at member
      exact Template.priority_terms member
  have acts := acting?_chosen sums.ready whole noBrace chosen
  have step := next_chosen sums.ready whole noBrace chosen
  have behind : next :: rest ++ f.after = next :: (rest ++ f.after) := rfl
  rw [Action.outcome_act_between sums.ready.distinct whole rfl ⟨rfl, rfl⟩ rfl behind operand
    (by cases seg <;> rfl)] at step
  have left : m.valueOf first.token = .ok (.string s) := by rw [token]; rfl
  refine ⟨⟨first, plus, next :: rest, s, acts, by rw [token]; rfl, rfl⟩, id' + 1, ?_, ?_⟩
  · intro stop failed
    rw [step, left, Except.bind_ok, show m.valueOf next.token = .error stop from failed]
    rfl
  · intro v value
    rw [left, Except.bind_ok, show m.valueOf next.token = .ok v from value] at step
    let sum : Cell := ⟨r, .literal (.string (s ++ v.text)) m.nextId f.cell.token.line⟩
    refine ⟨f.before.reverse ++ sum :: (rest ++ f.after), step, ?_, sum, m.nextId,
      r + 2, id' + 2, rfl, ?_⟩
    · apply sums.ready.onLine
      rw [Line.refs, cells]
      simp only [List.append_assoc, List.map_append, List.map_cons, List.cons_append]
      exact (List.Sublist.refl _).append (.cons _ (.cons_cons _ (.cons _ (.refl _))))
    · rw [others, List.append_assoc]
      rfl

/-- A sum is added up from the left. -/
theorem Sums.run {left right : List Segment} (sums : m.Sums f s (left ++ right))
    (top : left ≠ [] → TopTemplate f) (bound : ∀ seg ∈ left, seg.Bound m) :
    (∀ k < left.length, ∃ m', m.after k = .ok m' ∧ m'.AddsFor f) ∧
      ∃ cells, m.after left.length = .ok (m.onLine cells left.length) ∧
        (m.onLine cells left.length).Sums f
          (s ++ String.join (left.map (Segment.textIn m))) right := by
  induction left generalizing m s with
  | nil =>
      refine ⟨nofun, m.work.line.cells, rfl, ?_⟩
      rw [List.map_nil, String.join_nil, String.append_empty]
      exact sums
  | cons seg left ih =>
      have top' := top (List.cons_ne_nil seg left)
      obtain ⟨adds, id, -, added⟩ := sums.step top'
      obtain ⟨v, value, text⟩ := valueOf_segment (bound seg (by simp)) id f.cell.token.line
      obtain ⟨cells, step, sums'⟩ := added v value
      have rest := ih sums' (fun _ => top') fun seg' member => bound seg' (by simp [member])
      obtain ⟨before, cells', reached, last⟩ := rest
      constructor
      · intro k lt
        cases k with
        | zero => exact ⟨m, rfl, adds⟩
        | succ k =>
            obtain ⟨m', later, adds'⟩ := before k (by simpa using lt)
            exact ⟨m', by rw [after_succ, step, Except.bind_ok, later], adds'⟩
      · refine ⟨cells', ?_, ?_⟩
        · rw [List.length_cons, after_succ, step, Except.bind_ok, reached,
            onLine_onLine, Nat.add_comm]
        · rw [onLine_onLine, Nat.add_comm, text, String.append_assoc] at last
          rw [List.length_cons, List.map_cons, String.join_cons]
          exact last

end Machine

namespace Line

variable {l : Line} {f : Focus}

theorem chosen_of_highest? (distinct : l.refs.Nodup) (whole : f.cells = l.cells)
    (highest : l.highest? = some f.cell.ref) (other : f.cell.token.kind.isScopeBracket = false) :
    f.Chosen ∧ ∀ c, l.cells.head? = some c → c.token.kind.isScopeBracket = false := by
  have located := focus?_eq_some distinct whole
  have noBrace : ∀ c, l.cells.head? = some c → c.token.kind.isScopeBracket = false := by
    intro c head
    obtain ⟨cs, cells⟩ := List.head?_eq_some_iff.1 head
    cases brace : c.token.kind.isScopeBracket with
    | false => rfl
    | true =>
        rw [highest?, cells] at highest
        simp only [brace, if_true, Option.some.injEq] at highest
        have first : l.focus? c.ref = some ⟨[], c, cs⟩ :=
          focus?_eq_some distinct (f := ⟨[], c, cs⟩) cells.symm
        rw [highest, located] at first
        obtain rfl : f = ⟨[], c, cs⟩ := Option.some.inj first
        exact absurd brace (by simp [other])
  refine ⟨?_, noBrace⟩
  obtain ⟨c, head⟩ : ∃ c, l.cells.head? = some c := by
    cases cells : l.cells with
    | nil => simp [← whole, Focus.cells] at cells
    | cons c cs => exact ⟨c, rfl⟩
  obtain ⟨g, same, chosen, found⟩ := exists_chosen head (noBrace c head)
  have located' := focus?_eq_some distinct same
  rw [Option.some.inj (found.symm.trans highest), located] at located'
  rwa [Option.some.inj located']

end Line

namespace Machine

variable {m m' : Machine} {f : Focus} {template : String} {segments : List Segment}

def expanded (m : Machine) (f : Focus) (segments : List Segment) : Machine :=
  { m with
    nextId := m.nextId + (Template.expansion segments).length
    work :=
      { m.work with
        selected := none
        line :=
          { cells := f.before.reverse ++
              Action.chainCells f.cell.token.line f.cell.token.sumPriority m.work.line.nextRef
                m.nextId (Template.expansion segments) ++ f.after
            nextRef := m.work.line.nextRef + (Template.expansion segments).length } } }

theorem next_template (running : m.finished = false) (sound : m.work.line.Sound)
    (acts : m.acting? = some f)
    (kind : f.cell.token.kind = .template template)
    (parsed : Template.segments template = .ok segments) :
    m.next = .ok (m.expanded f segments) := by
  have whole := whole_of_acting acts
  have settled := Action.settles_expanded (m := { m with work := { m.work with selected := none } })
    whole f.cell.token.sumPriority (Template.expansion segments)
  rw [next_acting running sound.distinct acts, Action.outcome_act (by rw [kind]; rfl)]
  simp only [Action.perform, kind, Action.expandTemplate]
  rw [Action.outcome_bind, Action.outcome_ofCause, parsed]
  exact congrArg (Except.map Prod.snd) (settled.outcome sound)

theorem sums_expanded (running : m.finished = false) (sound : m.work.line.Sound)
    (acts : m.acting? = some f) (segments : List Segment) :
    (m.expanded f segments).Sums f (Template.firstText segments) (Template.added segments) := by
  constructor
  · refine ⟨running, rfl, ?_⟩
    have refs := Action.map_ref_chainCells f.cell.token.line f.cell.token.sumPriority
      m.work.line.nextRef
      m.nextId (Template.expansion segments)
    have length := congrArg List.length refs
    rw [List.length_map, List.length_range'] at length
    rw [← length] at refs
    exact (Action.sound_chain sound (whole_of_acting acts) refs).distinct
  · refine ⟨⟨m.work.line.nextRef, .literal (.string (Template.firstText segments)) m.nextId
      f.cell.token.line⟩, m.nextId, m.work.line.nextRef + 1, m.nextId + 1, rfl, ?_⟩
    simp only [expanded, Template.expansion_eq, Action.chainCells]
    rfl

theorem textIn_expanded : Segment.textIn (m.expanded f segments) = Segment.textIn m := by
  funext seg
  cases seg <;> rfl

theorem length_operands (segments : List Segment) :
    (Template.operands segments).length = (Template.added segments).length + 1 := by
  rw [Template.operands_eq, List.length_cons, List.length_map]

theorem sums_of_reached {source : String} {p : Program} (loaded : Program.load source = .ok p)
    (settings : Settings) {k : Nat} (reached : (Machine.start p settings).machine.after k = .ok m) :
    m.work.line.Sound ∧ ∀ c ∈ m.work.line.cells, Priority.inert < c.token.sumPriority := by
  obtain ⟨n, nests⟩ := p.exists_nestsBelow
  have stems := (sane_after loaded settings nests reached).work
  refine ⟨stems.sound, ?_⟩
  intro c member
  obtain ⟨s, fits⟩ := stems.fits.of_mem member
  exact Int.lt_of_le_of_lt fits.low c.token.lt_sumPriority

/-- A template that acts since it has the highest priority, and whose sum, if there is more than one
operand to it, is above the tokens that never act.  If all its placeholders name something, the
steps that follow add up the sum in its place, and then one string stands there, all else being as
it was.  Else one of these steps fails at the first placeholder that names nothing. -/
theorem template_interpolates (running : m.finished = false) (sound : m.work.line.Sound)
    (acts : m.acting? = some f) (highest : m.work.line.highest? = some f.cell.ref)
    (kind : f.cell.token.kind = .template template)
    (parsed : Template.segments template = .ok segments)
    (high : 1 < (Template.operands segments).length → Priority.inert < f.cell.token.sumPriority) :
    ((∀ seg ∈ segments, seg.Bound m) →
      (∀ k, 0 < k → k < (Template.operands segments).length →
        ∃ m', m.after k = .ok m' ∧ m'.AddsFor f) ∧
      ∃ c id ids refs,
        c.token = .literal (.string (String.join (segments.map (Segment.textIn m)))) id
          f.cell.token.line ∧
        m.after (Template.operands segments).length = .ok
          { m with
            nextId := m.nextId + ids
            work :=
              { m.work with
                selected := none
                line :=
                  { cells := f.before.reverse ++ c :: f.after
                    nextRef := m.work.line.nextRef + refs } } }) ∧
    ∀ left x right, segments = left ++ .name x :: right → (∀ seg ∈ left, seg.Bound m) →
      ¬ (Segment.name x).Bound m →
      ∃ k m', 0 < k ∧ k < (Template.operands segments).length ∧
        (∀ j, 0 < j → j ≤ k → ∃ m', m.after j = .ok m' ∧ m'.AddsFor f) ∧
        m.after k = .ok m' ∧ m'.next = .error (.at f.cell.token.line (.undeclared x)) := by
  have whole := whole_of_acting acts
  obtain ⟨chosen, noBrace⟩ := Line.chosen_of_highest? sound.distinct whole highest
    (by rw [kind]; rfl)
  rw [length_operands] at high ⊢
  have top (more : Template.added segments ≠ []) : TopTemplate f :=
    ⟨chosen, by rwa [whole], high (Nat.succ_lt_succ (List.length_pos_iff.2 more))⟩
  have step := next_template running sound acts kind parsed
  have sums := sums_expanded running sound acts segments
  have later {k : Nat} {m' : Machine} (reached : (m.expanded f segments).after k = .ok m') :
      m.after (k + 1) = .ok m' := by
    rw [after_succ, step, Except.bind_ok, reached]
  constructor
  · intro bound
    rw [← List.append_nil (Template.added segments)] at sums
    obtain ⟨adds, cells, reached, last⟩ :=
      sums.run top fun seg member => bound seg (Template.added_subset segments member)
    constructor
    · intro k pos lt
      obtain ⟨j, rfl⟩ := Nat.exists_eq_add_one_of_ne_zero (Nat.ne_of_gt pos)
      obtain ⟨m', reached, adds'⟩ := adds j (by omega)
      exact ⟨m', later reached, adds'⟩
    · obtain ⟨c, id, r, id', token, alone⟩ := last.sum
      have alone : cells = f.before.reverse ++ c :: f.after := by
        simpa [Template.terms, Action.chainCells] using alone
      rw [textIn_expanded, Template.join_added] at token
      refine ⟨c, id, (Template.expansion segments).length + (Template.added segments).length,
        (Template.expansion segments).length, token, ?_⟩
      rw [later reached, alone, ← Nat.add_assoc]
      rfl
  · intro left x right split bound unbound
    subst split
    rw [Template.added_name] at sums top ⊢
    have top' := top (List.append_ne_nil_of_right_ne_nil _ (List.cons_ne_nil _ _))
    obtain ⟨adds, cells, reached, last⟩ :=
      sums.run (fun _ => top') fun seg member => bound seg (Template.added_subset left member)
    obtain ⟨adds', id, fails, -⟩ := last.step top'
    refine ⟨(Template.added left).length + 1, _, by omega, by simp, ?_, later reached, ?_⟩
    · intro j pos le
      obtain ⟨i, rfl⟩ := Nat.exists_eq_add_one_of_ne_zero (Nat.ne_of_gt pos)
      rcases Nat.lt_or_eq_of_le (Nat.le_of_succ_le_succ le) with lt | rfl
      · obtain ⟨m', reached', adds''⟩ := adds i lt
        exact ⟨m', later reached', adds''⟩
      · exact ⟨_, later reached, adds'⟩
    · exact fails _ (valueOf_unbound unbound id _)

def greetScript : String :=
  "string who = \"you\"\ns = \"<\" + f\"\x7bwho\x7d and \x7bwho\x7d\" + \">\""

theorem template_interpolates_greetScript :
    ∃ m', (stateOf greetScript 2).after 4 = .ok m' ∧
      m'.work.line.cells.map (fun c => c.token.kind) =
        [.name "s", .operator .assign, .literal (.string "<"), .operator .add,
          .literal (.string "you and you"), .operator .add, .literal (.string ">")] := by
  have checked : (Program.load greetScript).toOption.isSome = true ∧
      ((Machine.start (programOf greetScript) {}).machine.after 2).toOption.isSome = true ∧
      (stateOf greetScript 2).finished = false ∧
      (stateOf greetScript 2).work.line.highest? = some 4 ∧
      (stateOf greetScript 2).value? "who" = some (.string "you") ∧
      (stateOf greetScript 2).acting?.map (fun f => (f.cell.ref, f.cell.token.kind,
        f.before.reverse.map fun c => c.token.kind, f.after.map fun c => c.token.kind)) =
        some (4, .template "\x7bwho\x7d and \x7bwho\x7d",
          [.name "s", .operator .assign, .literal (.string "<"), .operator .add],
          [.operator .add, .literal (.string ">")]) ∧
      (Template.segments "\x7bwho\x7d and \x7bwho\x7d").toOption =
        some [.name "who", .text " and ", .name "who"] := by
    decide +kernel
  obtain ⟨loads, steps, running, highest, value, look, segments⟩ := checked
  obtain ⟨f, acts, parts⟩ := Option.map_eq_some_iff.1 look
  simp only [Prod.mk.injEq] at parts
  obtain ⟨ref, kind, before, after⟩ := parts
  have loaded : Program.load greetScript = .ok (programOf greetScript) := Except.eq_ok_getD loads _
  have reached : (Machine.start (programOf greetScript) {}).machine.after 2 =
      .ok (stateOf greetScript 2) := Except.eq_ok_getD steps _
  obtain ⟨sound, above⟩ := sums_of_reached loaded {} reached
  have high : Priority.inert < f.cell.token.sumPriority := by
    apply above
    rw [← whole_of_acting acts, Focus.cells]
    simp
  have bound : ∀ seg ∈ [Segment.name "who", .text " and ", .name "who"],
      seg.Bound (stateOf greetScript 2) := by
    have who : (stateOf greetScript 2).symbols.contains "who" = true := by
      obtain ⟨v, found, -⟩ := Option.map_eq_some_iff.1 value
      rw [Symbols.contains, found]
      rfl
    simp [Segment.Bound, who]
  have parsed := Except.toOption_eq_some_iff.1 segments
  have interpolated :=
    (template_interpolates running sound acts (ref ▸ highest) kind parsed fun _ => high).1 bound
  obtain ⟨-, c, id, ids, refs', token, later⟩ := interpolated
  refine ⟨_, later, ?_⟩
  rw [List.map_append, List.map_cons, before, after, token]
  simp [Segment.textIn, value, Value.text, Token.literal, Token.new]

/-- A template on a line of its own, so low that its sum is not above the tokens that never act. -/
def lowTemplate : Cell :=
  { ref := 0
    token := { Token.new (.template "\x7bwho\x7d") 0 1 with priority := Priority.inert - 92 } }

def lowState : Machine :=
  { stateOf greetScript 2 with
    work :=
      { (stateOf greetScript 2).work with
        selected := none
        line := { cells := [lowTemplate], nextRef := 1 } } }

/-- The first operand of a low sum is met before the operator, and does not act. -/
theorem template_overlooked_low :
    lowState.finished = false ∧ lowState.work.line.Sound ∧
      (∀ c ∈ lowState.work.line.cells, c.token.priority < 2 ^ 30) ∧
      lowState.acting? = some ⟨[], lowTemplate, []⟩ ∧
      lowState.work.line.highest? = some lowTemplate.ref ∧
      Template.segments "\x7bwho\x7d" = .ok [.name "who"] ∧ (Segment.name "who").Bound lowState ∧
      ∃ m', lowState.after 1 = .ok m' ∧
        m'.work.line.cells.map (fun c => c.token.kind) =
          [.literal (.string ""), .operator .add, .name "who"] ∧
        m'.next = .error (.at 1 (.cannotReduce "+")) := by
  have checked : lowState.finished = false ∧
      lowState.acting? = some ⟨[], lowTemplate, []⟩ ∧
      lowState.work.line.highest? = some lowTemplate.ref ∧
      (Template.segments "\x7bwho\x7d").toOption = some [.name "who"] ∧
      lowState.symbols.contains "who" = true ∧
      ((lowState.after 1).toOption.map fun m' =>
        (m'.work.line.cells.map fun c => c.token.kind, m'.next.map fun _ => ())) =
        some ([.literal (.string ""), .operator .add, .name "who"],
          .error (.at 1 (.cannotReduce "+"))) := by
    decide +kernel
  obtain ⟨running, acts, highest, segments, who, look⟩ := checked
  have sound : lowState.work.line.Sound := ⟨by decide, by decide⟩
  obtain ⟨m', reached, parts⟩ := Option.map_eq_some_iff.1 look
  simp only [Prod.mk.injEq] at parts
  obtain ⟨kinds, stops⟩ := parts
  refine ⟨running, sound, by decide, acts, highest, Except.toOption_eq_some_iff.1 segments,
    .inl who, m', Except.toOption_eq_some_iff.1 reached, kinds, ?_⟩
  cases result : m'.next with
  | ok m'' => simp [result] at stops
  | error stop => simpa [result] using stops

end Machine

end LineScript

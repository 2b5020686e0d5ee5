import LineScript.Proofs.Atomicity

/-!
# Moves of control

Within a function control goes from line to line: it leaves loops and closes scopes
(`Machine.Unwinds`), and then a line of the program or a part of one is copied (`Machine.Fetches`).
-/

namespace LineScript

/-!
## Actions that lead somewhere
-/

namespace Action

variable {α β : Type} {x : Action α} {f : α → Action β} {m m₁ : Machine} {a : α}
  {P Q : Machine → Prop}

def Leads (x : Action α) (m : Machine) (Q : Machine → Prop) : Prop :=
  ∀ a m', x.outcome m = .ok (a, m') → Q m'

theorem leads_of_ok (ran : x.outcome m = .ok (a, m₁)) (holds : Q m₁) : x.Leads m Q := by
  intro _ _ ran'
  rw [ran] at ran'
  cases ran'
  exact holds

theorem leads_stop {stop : Stop} : (Action.stop stop : Action α).Leads m Q := by
  intro _ _ ran
  cases ran

theorem Leads.mono (leads : x.Leads m P) (weaker : ∀ m', P m' → Q m') : x.Leads m Q :=
  fun a m' ran => weaker m' (leads a m' ran)

theorem Leads.bind (first : x.Leads m P) (second : ∀ a m₁, P m₁ → (f a).Leads m₁ Q) :
    (x >>= f).Leads m Q := by
  intro b m' ran
  obtain ⟨a, m₁, ran₁, ran₂⟩ := outcome_bind_ok ran
  exact second a m₁ (first a m₁ ran₁) b m' ran₂

theorem Leads.next (ran : x.outcome m = .ok (a, m₁)) (rest : (f a).Leads m₁ Q) :
    (x >>= f).Leads m Q := by
  intro b m' ran'
  rw [outcome_bind, ran] at ran'
  exact rest b m' ran'

theorem Leads.cause {line : Nat} {y : Except Cause α} (rest : ∀ a, y = .ok a → (f a).Leads m Q) :
    (ofCause line y >>= f).Leads m Q := by
  intro b m' ran
  obtain ⟨a, m₁, checked, ran₁⟩ := outcome_bind_ok ran
  obtain ⟨found, rfl⟩ := ofCause_ok checked
  exact rest a found b m' ran₁

theorem Leads.known {y : Except Stop α} (rest : ∀ a, y = .ok a → (f a).Leads m Q) :
    (ofExcept y >>= f).Leads m Q := by
  intro b m' ran
  obtain ⟨a, m₁, looked, ran₁⟩ := outcome_bind_ok ran
  obtain ⟨found, rfl⟩ := ofExcept_ok looked
  exact rest a found b m' ran₁

theorem Leads.located {y : Except Fault α} (rest : ∀ a, y = .ok a → (f a).Leads m Q) :
    (ofFault y >>= f).Leads m Q := by
  intro b m' ran
  obtain ⟨a, m₁, looked, ran₁⟩ := outcome_bind_ok ran
  obtain ⟨found, rfl⟩ := ofFault_ok looked
  exact rest a found b m' ran₁

theorem Leads.operand {focus : Focus} {c? : Option Cell} {f : Cell → Action β}
    (rest : ∀ c, c? = some c → (f c).Leads m Q) : (asOperand focus c? >>= f).Leads m Q := by
  intro b m' ran
  obtain ⟨c, m₁, looked, ran₁⟩ := outcome_bind_ok ran
  obtain ⟨found, -, rfl⟩ := asOperand_ok looked
  exact rest c found b m' ran₁

theorem Looks.leads (looks : x.Looks) (rest : ∀ a, (f a).Leads m Q) : (x >>= f).Leads m Q := by
  intro b m' ran
  obtain ⟨a, m₁, ran₁, ran₂⟩ := outcome_bind_ok ran
  obtain rfl : m = m₁ := by rw [← machine_of_outcome ran₁, looks m]
  exact rest a b m' ran₂

theorem Settles.leads {x : Action Unit} {P : Line → Prop} (settles : Settles P x m m₁)
    (holds : Q m₁) :
    x.Leads m Q :=
  fun _ _ ran => settles.of_ok ran ▸ holds

theorem Settles.leads_bind {β : Type} {x : Action Unit} {f : Unit → Action β} {P : Line → Prop}
    (settles : Settles P x m m₁) (rest : (f ()).Leads m₁ Q) : (x >>= f).Leads m Q := by
  intro b m' ran
  obtain ⟨⟨⟩, m₂, ran₁, ran₂⟩ := outcome_bind_ok ran
  obtain rfl := settles.of_ok ran₁
  exact rest b m' ran₂

end Action

theorem Machine.start_of_leads {p : Program} {settings : Settings} {Q : Machine → Prop}
    (leads : (Action.goToLine 0).Leads (Machine.initial p settings) Q) :
    Q (Machine.start p settings).machine := by
  obtain ⟨m, ran⟩ :
      ∃ m, (Action.goToLine 0).outcome (Machine.initial p settings) = .ok ((), m) := by
    cases found : p.lines[0]? with
    | none => exact ⟨_, Machine.outcome_goToLine_past found⟩
    | some line => exact ⟨_, Machine.outcome_goToLine found⟩
  rw [Machine.start, Action.machine_of_outcome ran]
  exact leads () m ran

/-!
## Moves of control
-/

theorem Symbols.popMany_add (j k : Nat) (s : Symbols) :
    popMany (j + k) s = popMany k (popMany j s) := by
  induction j generalizing s with
  | zero => rw [Nat.zero_add, popMany]
  | succ j ih => rw [Nat.succ_add, popMany, popMany, ih]

namespace Machine

def withCells (m : Machine) (cells : List Cell) : Machine :=
  { m with work := { m.work with line := m.work.line.withCells cells } }

inductive Fetches (m : Machine) : Machine → Prop where
  | copy {index : Nat} {line part : Line} (found : m.program.lines[index]? = some line)
      (cells : part.cells <:+: line.cells) (nextRef : part.nextRef = line.nextRef)
      (purpose : Purpose) (selected : Option Ref) :
      m.Fetches { m with work := { index, line := part, purpose, selected } }
  | halt : m.Fetches { m with work := {}, finished := true }

/-- Scopes are closed and loops are left.  The records of scopes that stay open are kept. -/
inductive Unwinds (m : Machine) : Machine → Prop where
  | intro {n : Nat} {loops : List Loop} {blocks : List Block} (gotos : List Nat)
      (loops_ : loops.Sublist m.loops) (blocks_ : blocks.Sublist m.blocks)
      (live : ∀ b ∈ m.blocks, b.depth ≤ (Symbols.popMany n m.symbols).depth → b ∈ blocks) :
      m.Unwinds { m with symbols := Symbols.popMany n m.symbols, gotos, loops, blocks }

inductive Jumps (m : Machine) : Machine → Prop where
  | intro {m₁ m' : Machine} (unwinds : m.Unwinds m₁) (fetches : m₁.Fetches m') : m.Jumps m'

/-- Control goes to another line, unless this is up to a loop and there is none. -/
def Settles (m m' : Machine) : Prop :=
  m.loops = [] ∧ m' = m ∨ m.Jumps m'

variable {m m₁ m' : Machine}

theorem Unwinds.refl (m : Machine) : m.Unwinds m :=
  .intro (n := 0) m.gotos (.refl _) (.refl _) fun _ member _ => member

theorem unwinds_symbols (m : Machine) (n : Nat) :
    m.Unwinds { m with symbols := Symbols.popMany n m.symbols } :=
  .intro m.gotos (.refl _) (.refl _) fun _ member _ => member

theorem Unwinds.trans (first : m.Unwinds m₁) (second : m₁.Unwinds m') : m.Unwinds m' := by
  obtain @⟨j, _, _, _, loops, blocks, live⟩ := first
  obtain @⟨k, _, _, gotos, loops', blocks', live'⟩ := second
  rw [← Symbols.popMany_add]
  refine .intro gotos (loops'.trans loops) (blocks'.trans blocks) ?_
  intro b member low
  rw [Symbols.popMany_add] at low
  refine live' b (live b member (Nat.le_trans low ?_)) low
  rw [Symbols.depth_popMany k]
  exact Nat.sub_le _ _

theorem Fetches.jumps (fetches : m.Fetches m') : m.Jumps m' :=
  .intro (.refl m) fetches

theorem Jumps.after (jumps : m₁.Jumps m') (unwinds : m.Unwinds m₁) : m.Jumps m' := by
  obtain ⟨unwinds', fetches⟩ := jumps
  exact ⟨unwinds.trans unwinds', fetches⟩

theorem Settles.jumps (settles : m.Settles m') (runs : m.loops ≠ []) : m.Jumps m' :=
  settles.resolve_left fun idle => runs idle.1

end Machine

namespace Action

variable {m : Machine} {f : Focus}

theorem goToLine_fetches (i : Nat) : (goToLine i).Leads m m.Fetches := by
  refine .next (outcome_get m) ?_
  split
  · rename_i line found
    exact leads_of_ok (outcome_modify _ m) (.copy found (List.infix_refl _) rfl _ _)
  · exact leads_of_ok Machine.outcome_halt .halt

theorem goTo_fetches (target : Option Position) : (goTo target).Leads m m.Fetches := by
  cases target with
  | none => exact leads_of_ok Machine.outcome_halt .halt
  | some pos =>
      refine .next (outcome_get m) (.located fun part made => ?_)
      refine (looks_ofExcept _).leads fun token => (looks_emit _).leads fun _ => ?_
      obtain ⟨line, found, dropped⟩ := Program.found_of_part made
      exact leads_of_ok (outcome_modify _ m)
        (.copy found (Line.suffix_dropBefore dropped).isInfix (Line.nextRef_dropBefore dropped) _ _)

theorem workOnHeader_fetches (header : Nat) (part : HeaderPart) (purpose : Purpose) :
    (workOnHeader header part purpose).Leads m m.Fetches := by
  refine .next (outcome_get m) (.located fun part made => ?_)
  obtain ⟨line, found, kept⟩ := Program.found_of_part made
  exact leads_of_ok (outcome_modify _ m)
    (.copy found (Line.infix_keepRange kept) (Line.nextRef_keepRange kept) _ _)

/-!
Loops.
-/

theorem leaveLoop_settles : leaveLoop.Leads m m.Settles := by
  refine .next (outcome_get m) ?_
  split
  · rename_i none
    exact leads_of_ok (outcome_pure _ m) (.inl ⟨none, rfl⟩)
  · rename_i loop loops own
    refine .next (outcome_modify _ m) ((looks_emit _).leads fun _ => ?_)
    refine (looks_ofExcept _).leads fun after => (goTo_fetches after).mono fun _ fetches => .inr ?_
    refine .intro (.intro m.gotos ?_ (.refl _) fun _ member _ => member) fetches
    rw [own]
    exact List.sublist_cons_self loop loops

theorem testLoop_settles : testLoop.Leads m m.Settles := by
  refine .next (outcome_get m) ?_
  split
  · rename_i none
    exact leads_of_ok (outcome_pure _ m) (.inl ⟨none, rfl⟩)
  · split
    · exact (workOnHeader_fetches _ _ _).mono fun _ fetches => .inr fetches.jumps
    · exact leaveLoop_settles

theorem decideLoop_settles (result : Option Token) : (decideLoop result).Leads m m.Settles := by
  unfold decideLoop
  split
  · exact leaveLoop_settles
  · refine .next (outcome_get m) ((looks_ofExcept _).leads fun value => ?_)
    refine (looks_ofExcept _).leads fun holds => ?_
    split
    · split
      · rename_i none
        exact leads_of_ok (outcome_pure _ m) (.inl ⟨none, rfl⟩)
      · exact (goTo_fetches _).mono fun _ fetches => .inr fetches.jumps
    · exact leaveLoop_settles

theorem nextIteration_settles : nextIteration.Leads m m.Settles := by
  refine .next (outcome_get m) ?_
  split
  · rename_i none
    exact leads_of_ok (outcome_pure _ m) (.inl ⟨none, rfl⟩)
  · rename_i loop loops own
    have unwinds : m.Unwinds { m with symbols := m.symbols.unwind (loop.scopes + 1) } :=
      m.unwinds_symbols _
    refine .next (outcome_setSymbols _ m) ?_
    split
    · exact (workOnHeader_fetches _ _ _).mono fun _ fetches => .inr (.intro unwinds fetches)
    · refine testLoop_settles.mono fun _ settles => .inr ((settles.jumps ?_).after unwinds)
      simp [own]

theorem obeySignal_settles (signal : Signal) (line : Nat) :
    (obeySignal signal line).Leads m m.Settles := by
  refine .next (outcome_get m) ?_
  split
  · exact leads_stop
  · split
    · split
      · exact leaveLoop_settles
      · exact nextIteration_settles
    · exact leads_stop

theorem conclude_settles (result : Option Token) : (conclude result).Leads m m.Settles := by
  refine .next (outcome_get m) ?_
  split
  · split
    · exact obeySignal_settles _ _
    · exact (goToLine_fetches _).mono fun _ fetches => .inr fetches.jumps
  · exact testLoop_settles
  · exact testLoop_settles
  · exact decideLoop_settles result

/-!
Branches and labels.
-/

theorem takeBranch_fetches (condition : Cell) : (takeBranch f condition).Leads m m.Fetches := by
  refine (looks_valueOf _).leads fun v => ?_
  split
  · refine .next (outcome_get m) ((looks_ofExcept _).leads fun block => ?_)
    refine (looks_emit _).leads fun _ => ?_
    split
    · exact goTo_fetches _
    · refine (looks_ofExcept _).leads fun close => (looks_ofExcept _).leads fun target => ?_
      exact goTo_fetches target
  · exact leads_stop

theorem branch_fetches : (branch f).Leads m m.Fetches := by
  refine (looks_asOperand _ _).leads fun condition => ?_
  split
  · split
    · exact leads_stop
    · exact takeBranch_fetches condition
  · exact takeBranch_fetches condition

theorem passElse_fetches : (passElse f).Leads m m.Fetches := by
  refine .next (outcome_get m) ((looks_ofExcept _).leads fun block => ?_)
  exact (looks_ofExcept _).leads fun after => goTo_fetches after

theorem jumpToLabel_jumps : (jumpToLabel f).Leads m m.Jumps := by
  unfold jumpToLabel
  split
  · refine .next (outcome_get m) ?_
    split
    · exact leads_stop
    · refine (looks_ofExcept _).leads fun keep => .next (outcome_modify _ m) ?_
      refine (looks_emit _).leads fun _ => (goToLine_fetches _).mono fun _ fetches => ?_
      refine .intro (.intro _ List.filter_sublist List.filter_sublist ?_) fetches
      intro b member low
      rw [← Symbols.unwind, Symbols.depth_unwind] at low
      exact List.mem_filter.2 ⟨member, decide_eq_true (Nat.le_trans low (Nat.min_le_right _ _))⟩
  · exact leads_stop

theorem jumpBack_jumps : (jumpBack f).Leads m m.Jumps := by
  refine .next (outcome_get m) ?_
  split
  · exact leads_stop
  · rename_i origin gotos _
    refine .next (outcome_modify _ m) ((looks_emit _).leads fun _ => ?_)
    refine (goToLine_fetches _).mono fun _ fetches => .intro ?_ fetches
    exact .intro (n := 0) gotos (.refl _) (.refl _) fun _ member _ => member

end Action

end LineScript

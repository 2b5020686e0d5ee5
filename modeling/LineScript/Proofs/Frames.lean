import LineScript.Proofs.Effects.Steps

/-!
# What a step does to frames

A `{` in the flow of control records its position with the depth of the scope that it opens; a loop
and a call open scopes without a record.  Scopes are closed in many places that leave the records
alone.

The `}` of a body means more than the end of a scope: an iteration ends there, or a call.  New
bodies come from a `while`, a `for` or a `def`, which look for their block from their own line.

`Machine.records_of_next` says what a step of any machine does to records and bodies.
-/

namespace LineScript

def TokenKind.hasBody : TokenKind → Bool
  | .keyword .while | .keyword .for | .keyword .define => true
  | _ => false

def TokenKind.opensFrame : TokenKind → Bool
  | .keyword .while | .keyword .for | .bracket .call .opening => true
  | _ => false

namespace Machine

def bodies (m : Machine) : List Extent :=
  m.loops.map Loop.body ++ m.functions.all.map Function.body ++
    m.calls.map fun c => c.function.body

/-- The token in focus makes a body of a block that is looked for from its line. -/
def GivesBody (m : Machine) (f : Focus) (e : Extent) : Prop :=
  f.cell.token.kind.hasBody = true ∧
    ∃ r, m.program.blockAfter { line := m.work.index, token := r } = .ok e

/-- No scope is opened, and the records of scopes that stay open are kept. -/
structure Sheds (m : Machine) (new : List Extent) (m' : Machine) : Prop where
  depth : m'.symbols.depth ≤ m.symbols.depth
  sublist : m'.blocks.Sublist m.blocks
  live : ∀ b ∈ m.blocks, b.depth ≤ m'.symbols.depth → b ∈ m'.blocks
  bodies : m'.bodies ⊆ new ++ m.bodies

structure Opens (m : Machine) (new : List Extent) (m' : Machine) : Prop where
  depth : m'.symbols.depth = m.symbols.depth + 1
  sublist : m'.blocks.Sublist m.blocks
  live : ∀ b ∈ m.blocks, b.depth ≤ m.symbols.depth → b ∈ m'.blocks
  dropped : ∀ b ∈ m'.blocks, b.depth ≤ m.symbols.depth
  bodies : m'.bodies ⊆ new ++ m.bodies

inductive Records (m : Machine) (acting : Option Focus) (m' : Machine) : Prop where
  | block (f : Focus) (acts : acting = some f) (kind : f.cell.token.kind = .openBrace)
      (depth : m'.symbols.depth = m.symbols.depth + 1)
      (blocks : m'.blocks = m.keptBlocks ++
        [{ depth := m.symbols.depth + 1, brace := m.positionOf f.cell }])
      (bodies : m'.bodies = m.bodies)
  | opens (f : Focus) (acts : acting = some f) (kind : f.cell.token.kind.opensFrame = true)
      (new : List Extent) (heads : ∀ e ∈ new, m.GivesBody f e) (opens : m.Opens new m')
  | sheds (new : List Extent) (heads : ∀ e ∈ new, ∃ f, acting = some f ∧ m.GivesBody f e)
      (sheds : m.Sheds new m')

variable {m m₁ m' : Machine} {new : List Extent}

theorem mem_bodies {e : Extent} : e ∈ m.bodies ↔
    (∃ l ∈ m.loops, l.body = e) ∨ (∃ f ∈ m.functions.all, f.body = e) ∨
      ∃ c ∈ m.calls, c.function.body = e := by
  simp only [bodies, List.mem_append, List.mem_map, or_assoc]

theorem bodies_subset (loops : ∀ l ∈ m'.loops, l ∈ m.loops ∨ l.body ∈ new)
    (functions : ∀ f ∈ m'.functions.all, f ∈ m.functions.all ∨ f.body ∈ new)
    (calls : ∀ c ∈ m'.calls, c ∈ m.calls ∨ c.function ∈ m.functions.all) :
    m'.bodies ⊆ new ++ m.bodies := by
  intro e member
  rw [List.mem_append, mem_bodies]
  rcases mem_bodies.1 member with ⟨l, hl, rfl⟩ | ⟨f, hf, rfl⟩ | ⟨c, hc, rfl⟩
  · exact (loops l hl).elim (fun old => .inr (.inl ⟨l, old, rfl⟩)) .inl
  · exact (functions f hf).elim (fun old => .inr (.inr (.inl ⟨f, old, rfl⟩))) .inl
  · rcases calls c hc with old | known
    · exact .inr (.inr (.inr ⟨c, old, rfl⟩))
    · exact .inr (.inr (.inl ⟨c.function, known, rfl⟩))

theorem bodies_dropped (loops : m'.loops ⊆ m.loops) (functions : m'.functions = m.functions)
    (calls : m'.calls ⊆ m.calls) : m'.bodies ⊆ [] ++ m.bodies :=
  bodies_subset (fun _ hl => .inl (loops hl)) (fun _ hf => .inl (functions ▸ hf))
    fun _ hc => .inl (calls hc)

theorem sheds_of_eq (depth : m'.symbols.depth = m.symbols.depth) (blocks : m'.blocks = m.blocks)
    (bodies : m'.bodies = m.bodies) : m.Sheds [] m' where
  depth := Nat.le_of_eq depth
  sublist := blocks ▸ .refl _
  live := fun _ member _ => blocks ▸ member
  bodies := fun _ member => bodies ▸ member

theorem Sheds.after (second : m₁.Sheds [] m') (first : m.Sheds new m₁) : m.Sheds new m' where
  depth := Nat.le_trans second.depth first.depth
  sublist := second.sublist.trans first.sublist
  live := fun b member le =>
    second.live b (first.live b member (Nat.le_trans le second.depth)) le
  bodies := fun _ member => first.bodies (second.bodies member)

theorem Sheds.records (sheds : m.Sheds [] m') (acting : Option Focus) : m.Records acting m' :=
  .sheds [] nofun sheds

theorem opens_push (symbols : m'.symbols = m.symbols.push) (blocks : m'.blocks = m.keptBlocks)
    (bodies : m'.bodies ⊆ new ++ m.bodies) : m.Opens new m' where
  depth := by rw [symbols, Symbols.depth_push]
  sublist := blocks ▸ List.filter_sublist
  live := by
    intro b member le
    rw [blocks]
    exact List.mem_filter.2 ⟨member, decide_eq_true (Nat.lt_succ_of_le le)⟩
  dropped := by
    intro b member
    rw [blocks] at member
    exact Nat.le_of_lt_succ (of_decide_eq_true (List.mem_filter.1 member).2)
  bodies := bodies

theorem Opens.sheds (opens : m.Opens new m₁) (sheds : m₁.Sheds [] m') :
    m.Opens new m' ∨ m.Sheds new m' := by
  have deeper := opens.depth
  have bodies : m'.bodies ⊆ new ++ m.bodies := fun _ member => opens.bodies (sheds.bodies member)
  rcases Nat.eq_or_lt_of_le sheds.depth with same | less
  · left
    refine ⟨by rw [same, deeper], sheds.sublist.trans opens.sublist, ?_, ?_, bodies⟩
    · intro b member le
      exact sheds.live b (opens.live b member le) (by omega)
    · exact fun b member => opens.dropped b (sheds.sublist.subset member)
  · right
    refine ⟨by omega, sheds.sublist.trans opens.sublist, ?_, bodies⟩
    intro b member le
    exact sheds.live b (opens.live b member (by omega)) le

theorem Opens.records (opens : m.Opens new m₁) (sheds : m₁.Sheds [] m') {f : Focus}
    (kind : f.cell.token.kind.opensFrame = true) (heads : ∀ e ∈ new, m.GivesBody f e) :
    m.Records (some f) m' := by
  rcases opens.sheds sheds with opens | sheds
  · exact .opens f rfl kind new heads opens
  · exact .sheds new (fun e member => ⟨f, rfl, heads e member⟩) sheds

/-!
## Steps
-/

theorem Fetches.sheds (fetches : m.Fetches m') : m.Sheds [] m' := by
  cases fetches <;> exact sheds_of_eq rfl rfl rfl

theorem Unwinds.sheds (unwinds : m.Unwinds m') : m.Sheds [] m' := by
  obtain ⟨_, loops, blocks, live⟩ := unwinds
  refine ⟨?_, blocks, live, bodies_dropped loops.subset rfl (List.Subset.refl _)⟩
  rw [Symbols.depth_popMany]
  exact Nat.sub_le _ _

theorem Jumps.sheds (jumps : m.Jumps m') : m.Sheds [] m' := by
  obtain ⟨unwinds, fetches⟩ := jumps
  exact fetches.sheds.after unwinds.sheds

theorem Settles.sheds (settles : m.Settles m') : m.Sheds [] m' := by
  rcases settles with ⟨-, rfl⟩ | jumps
  · exact sheds_of_eq rfl rfl rfl
  · exact jumps.sheds

theorem sheds_pop (m : Machine) (cells : List Cell) :
    m.Sheds [] (({ m with symbols := m.symbols.pop } : Machine).withCells cells) := by
  refine ⟨?_, .refl _, fun _ member _ => member, List.Subset.refl _⟩
  show m.symbols.pop.depth ≤ _
  rw [Symbols.depth_pop]
  exact Nat.sub_le _ _

theorem HandsBack.sheds {value : Value} (back : m.HandsBack value m') : m.Sheds [] m' := by
  obtain ⟨own, -⟩ := back
  refine ⟨?_, .refl _, fun _ member _ => member, bodies_dropped (List.drop_subset _ _) rfl ?_⟩
  · rw [Symbols.depth_unwind]
    exact Nat.min_le_left _ _
  · rw [own]
    exact List.subset_cons_self _ _

variable {f : Focus}

theorem Edits.records (edits : m.Edits f m') : m.Records (some f) m' := by
  cases edits with
  | answer _ _ _ _ takes => exact .sheds [] nofun (sheds_of_eq takes.grows.depth rfl rfl)
  | declare _ added => exact .sheds [] nofun (sheds_of_eq (Symbols.grows_add added).depth rfl rfl)
  | openBlock kind => exact .block f rfl kind rfl rfl rfl
  | closeBlock _ => exact (m.sheds_pop _).records _
  | _ => exact .sheds [] nofun (sheds_of_eq rfl rfl rfl)

theorem Transfers.records (transfers : m.Transfers f m') : m.Records (some f) m' := by
  cases transfers with
  | jump jumps => exact jumps.sheds.records _
  | @loop loop r m' kind body jumps =>
      have heads : ∀ e ∈ [loop.body], m.GivesBody f e := by
        intro e member
        obtain rfl := List.mem_singleton.1 member
        exact ⟨by rcases kind with kind | kind <;> rw [kind] <;> rfl, r, body⟩
      refine Opens.records (opens_push rfl rfl ?_) jumps.sheds ?_ heads
      · refine bodies_subset ?_ (fun _ old => .inl old) fun _ old => .inl old
        intro l member
        rcases List.mem_cons.1 member with rfl | old
        · exact .inr (List.mem_singleton.2 rfl)
        · exact .inl old
      · rcases kind with kind | kind <;> rw [kind] <;> rfl
  | iterate jumps => exact (jumps.sheds.after (m.sheds_pop _)).records _
  | @define function functions r m' kind body registered fetches =>
      refine .sheds [function.body] ?_ (fetches.sheds.after ?_)
      · intro e member
        obtain rfl := List.mem_singleton.1 member
        exact ⟨f, rfl, by rw [kind]; rfl, r, body⟩
      · refine ⟨Nat.le_refl _, .refl _, fun _ member _ => member, ?_⟩
        refine bodies_subset (fun _ old => .inl old) ?_ fun _ old => .inl old
        intro g member
        rcases mem_register registered member with old | rfl
        · exact .inl old
        · exact .inr (List.mem_singleton.2 rfl)
  | @call _ _ close name _ function _ _ _ kind _ _ _ _ found _ declares fetches =>
      have none : ∀ e ∈ [], m.GivesBody f e := List.forall_mem_nil _
      have opened : m.Opens []
          { m with
            work := {}
            symbols := m.symbols.push
            blocks := m.keptBlocks
            calls := m.frameOf function name close :: m.calls } := by
        refine opens_push rfl rfl (bodies_subset (fun _ old => .inl old) (fun _ old => .inl old) ?_)
        intro c member
        rcases List.mem_cons.1 member with rfl | old
        · exact .inr (callee_mem found)
        · exact .inl old
      refine opened.records (fetches.sheds.after ?_) (by rw [kind]; rfl) none
      exact sheds_of_eq declares.grows.depth rfl rfl
  | giveBack _ back => exact back.sheds.records _
  | finish back => exact (back.sheds.after (m.sheds_pop _)).records _

theorem Records.of_selected {selected : Option Ref} {acting : Option Focus}
    (records : ({ m with work := { m.work with selected } } : Machine).Records acting m') :
    m.Records acting m' := by
  cases records with
  | block g here kind depth blocks bodies => exact .block g here kind depth blocks bodies
  | opens g here kind new heads opens =>
      exact .opens g here kind new heads
        ⟨opens.depth, opens.sublist, opens.live, opens.dropped, opens.bodies⟩
  | sheds new heads sheds =>
      exact .sheds new heads ⟨sheds.depth, sheds.sublist, sheds.live, sheds.bodies⟩

theorem records_of_next (step : m.next = .ok m') : m.Records m.acting? m' := by
  cases does_of_next step with
  | rest _ => exact (sheds_of_eq rfl rfl rfl).records _
  | conclude _ _ settles => exact .sheds [] nofun (settles.sheds.after (sheds_of_eq rfl rfl rfl))
  | edit acts _ _ edits => exact acts ▸ edits.records.of_selected
  | transfer acts _ transfers => exact acts ▸ transfers.records.of_selected

end Machine

end LineScript

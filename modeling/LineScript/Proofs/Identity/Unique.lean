import Mathlib.Data.List.Nodup
import LineScript.Proofs.Identity.Changes
import LineScript.Proofs.Loading.Structure
import LineScript.Proofs.Nesting.InStep

/-!
# Identities of tokens

Loading numbers the tokens of a program, and a run numbers those that it makes from there on.  A
copy of a program line keeps the identities of its tokens, and the line of a call stays as it was
while the call is active, so in every line of a run each token has an identity of its own
(`Machine.identities_unique`).  The invariant is `Work.Stamped`; each way to change a line keeps it,
and so does a run.
-/

namespace LineScript

/-!
## Numbered lines
-/

def Line.ids (l : Line) : List Nat :=
  l.tokens.map Token.id

theorem Program.ids_of_load {source : String} {p : Program} (loaded : Program.load source = .ok p) :
    p.tokens.map Token.id = List.range p.nextId := by
  obtain ⟨ls, s, scanned, read, -, -, lines, -, nextId⟩ := exists_reading loaded
  have scannable := Lexeme.scannable_of_mem scanned
  have order := (Draft.inOrder_empty.addAll Draft.matched_empty scannable read).closeLine
  have tokens : s.closeLine.tokens = p.tokens := by
    simp [Draft.tokens, Program.tokens, Line.tokens, lines, s.current_closeLine]
  rw [← tokens, order.ids, s.nextId_closeLine, nextId]

structure Program.Stamped (p : Program) : Prop where
  sound : ∀ line ∈ p.lines, line.Sound
  ids : ∀ line ∈ p.lines, line.ids.Sublist (List.range p.nextId)

theorem Program.stamped_of_load {source : String} {p : Program}
    (loaded : Program.load source = .ok p) : p.Stamped where
  sound line member := ((balanced_of_load loaded).loaded line member).sound
  ids line member := by
    rw [← ids_of_load loaded]
    exact (List.sublist_flatten_of_mem (List.mem_map_of_mem member)).map Token.id

/-- Where a token in a copy of a program line comes from. -/
inductive Cell.Stems (p : Program) (line : Line) (c : Cell) : Prop where
  /-- The line has the token at the same place. -/
  | still {d : Cell} (member : d ∈ line.cells) (same : c.core = d.core)
  /-- The token was made in the run.  At a place of the line it is a value for a token that was
  none. -/
  | made (later : p.nextId ≤ c.token.id)
      (answers : ∀ d ∈ line.cells, d.ref = c.ref →
        d.token.kind.isLiteral = false ∧ c.token.kind.isLiteral = true)

theorem Cell.Stems.of_core {p : Program} {line : Line} {c c' : Cell} (stems : c.Stems p line)
    (same : c'.core = c.core) : c'.Stems p line := by
  cases stems with
  | still member same' => exact .still member (same.trans same')
  | made later answers =>
      obtain ⟨ref, kind, id, -⟩ := core_eq_iff.1 same
      exact .made (id ▸ later) (ref ▸ kind ▸ answers)

theorem Cell.Stems.answer {p : Program} {line : Line} {c : Cell} (stems : c.Stems p line)
    (sound : line.Sound) (other : c.token.kind.isLiteral = false) (value : Value) {id : Nat}
    (later : p.nextId ≤ id) :
    Cell.Stems p line { c with token := .literal value id c.token.line } := by
  refine .made later fun d member ref => ⟨?_, rfl⟩
  cases stems with
  | still member' same =>
      obtain ⟨ref', kind, -, -⟩ := core_eq_iff.1 same
      obtain rfl := List.inj_on_of_nodup_map sound.distinct member' member
        (ref'.symm.trans ref.symm)
      rwa [← kind]
  | made _ answers =>
      -- No place of the line holds a made token that is no value.
      rw [(answers d member ref).2] at other
      cases other

/-!
## Stamped lines
-/

namespace Work

/-- References and identities name at most one token of the line, and new ones none.  A token of the
line is one that the program line has or that was made in the run. -/
structure Stamped (w : Work) (p : Program) (id : Nat) : Prop where
  sound : w.line.Sound
  distinct : w.line.ids.Nodup
  below : ∀ i ∈ w.line.ids, i < id
  stems : ∀ c ∈ w.line.cells, ∃ line, p.lines[w.index]? = some line ∧
    line.nextRef ≤ w.line.nextRef ∧ c.Stems p line

variable {w : Work} {p : Program} {id : Nat}

theorem stamped_empty : ({} : Work).Stamped p id :=
  ⟨⟨.nil, nofun⟩, .nil, nofun, nofun⟩

theorem Stamped.mono (stamped : w.Stamped p id) {id' : Nat} (le : id ≤ id') : w.Stamped p id' :=
  ⟨stamped.sound, stamped.distinct, fun i hi => Nat.lt_of_lt_of_le (stamped.below i hi) le,
    stamped.stems⟩

theorem stamped_copy (program : p.Stamped) {index : Nat} {line : Line}
    (found : p.lines[index]? = some line) (later : p.nextId ≤ id) (purpose : Purpose)
    (selected : Option Ref) : Stamped { index, line, purpose, selected } p id where
  sound := program.sound line (List.mem_of_getElem? found)
  distinct := (program.ids line (List.mem_of_getElem? found)).nodup List.nodup_range
  below i hi := by
    have member := (program.ids line (List.mem_of_getElem? found)).subset hi
    exact Nat.lt_of_lt_of_le (List.mem_range.1 member) later
  stems c hc := ⟨line, found, Nat.le_refl _, .still hc rfl⟩

theorem Stamped.thin (stamped : w.Stamped p id) {cells : List Cell}
    (kept : (cells.map Cell.core).Sublist (w.line.cells.map Cell.core)) :
    ({ w with line := w.line.withCells cells } : Work).Stamped p id := by
  have refs : (cells.map Cell.ref).Sublist w.line.refs := by
    simpa [Line.refs, Function.comp_def, Cell.core] using kept.map Cell.ref
  have ids : (w.line.withCells cells).ids.Sublist w.line.ids := by
    simpa [Line.ids, Line.tokens, Line.withCells, Function.comp_def, Cell.core] using
      kept.map fun c => c.token.id
  refine ⟨stamped.sound.withCells refs, ids.nodup stamped.distinct,
    fun i hi => stamped.below i (ids.subset hi), fun c hc => ?_⟩
  obtain ⟨d, hd, same⟩ := List.mem_map.1 (kept.subset (List.mem_map_of_mem hc))
  obtain ⟨line, found, le, stems⟩ := stamped.stems d hd
  exact ⟨line, found, le, stems.of_core same.symm⟩

theorem Stamped.splice (stamped : w.Stamped p id) {before after : List Cell} {c : Cell}
    (made : List Cell) (whole : w.line.cells = before ++ c :: after) {line : Line}
    (sound : line.Sound)
    (grown : w.line.nextRef ≤ line.nextRef) (cells : line.cells = before ++ made ++ after)
    (ids : made.map (fun c => c.token.id) = List.range' id made.length)
    (stems : ∀ d ∈ made, ∀ own, p.lines[w.index]? = some own → own.nextRef ≤ w.line.nextRef →
      c.Stems p own → d.Stems p own) :
    ({ w with line } : Work).Stamped p (id + made.length) := by
  have around : (before ++ after).Sublist w.line.cells := by
    rw [whole]
    exact (List.Sublist.refl _).append (List.sublist_cons_self _ _)
  have old : (before.map (fun c => c.token.id) ++ after.map fun c => c.token.id).Sublist
      w.line.ids := by
    simpa [Line.ids, Line.tokens, Function.comp_def] using around.map fun c => c.token.id
  have new : line.ids = before.map (fun c => c.token.id) ++ List.range' id made.length ++
      after.map fun c => c.token.id := by
    simp [Line.ids, Line.tokens, cells, ← ids, Function.comp_def]
  obtain ⟨distinct, below⟩ := Action.splice_fresh (n := made.length) (old.nodup stamped.distinct)
    fun i hi => stamped.below i (old.subset hi)
  refine ⟨sound, new ▸ distinct, new ▸ below, ?_⟩
  intro d hd
  rw [cells, List.append_assoc, List.mem_append, List.mem_append] at hd
  have earlier (hd : d ∈ before ++ after) : ∃ own, p.lines[w.index]? = some own ∧
      own.nextRef ≤ line.nextRef ∧ d.Stems p own := by
    obtain ⟨own, found, le, stems⟩ := stamped.stems d (around.subset hd)
    exact ⟨own, found, Nat.le_trans le grown, stems⟩
  rcases hd with left | among | right
  · exact earlier (List.mem_append_left _ left)
  · obtain ⟨own, found, le, replaced⟩ := stamped.stems c (by rw [whole]; simp)
    exact ⟨own, found, Nat.le_trans le grown, stems d among own found le replaced⟩
  · exact earlier (List.mem_append_right _ right)

theorem Stamped.answer (stamped : w.Stamped p id) (program : p.Stamped) (later : p.nextId ≤ id)
    {before after : List Cell} {c : Cell} (whole : w.line.cells = before ++ c :: after)
    (other : c.token.kind.isLiteral = false) (value : Value) :
    ({ w with
      line := w.line.withCells
        (before ++ { c with token := .literal value id c.token.line } :: after) } : Work).Stamped
      p (id + 1) := by
  refine stamped.splice [{ c with token := .literal value id c.token.line }] whole
    (stamped.sound.withCells ?_) (Nat.le_refl _) (by simp [Line.withCells]) rfl ?_
  · rw [Line.refs, whole]
    simp
  · intro d hd own found le stems
    rw [List.mem_singleton.1 hd]
    exact stems.answer (program.sound own (List.mem_of_getElem? found)) other value later

theorem le_of_map_eq_range' {g : Cell → Nat} {made : List Cell} {start n : Nat}
    (same : made.map g = List.range' start n) {d : Cell} (member : d ∈ made) : start ≤ g d := by
  have among : g d ∈ List.range' start n := same ▸ List.mem_map_of_mem member
  exact (List.mem_range'_1.1 among).1

theorem Stamped.draw (stamped : w.Stamped p id) (program : p.Stamped) (later : p.nextId ≤ id)
    {before after : List Cell} {c : Cell} (made : List Cell)
    (whole : w.line.cells = before ++ c :: after)
    (refs : made.map Cell.ref = List.range' w.line.nextRef made.length)
    (ids : made.map (fun c => c.token.id) = List.range' id made.length) :
    ({ w with
      line :=
        { cells := before ++ made ++ after
          nextRef := w.line.nextRef + made.length } } : Work).Stamped p (id + made.length) := by
  have sound := Action.sound_chain (f := ⟨before.reverse, c, after⟩) stamped.sound
    (by rw [Focus.cells, List.reverse_reverse, whole]) refs
  rw [List.reverse_reverse] at sound
  refine stamped.splice made whole sound (Nat.le_add_right _ _) rfl ids
    fun d hd own found le _ => ?_
  have newId : id ≤ d.token.id := le_of_map_eq_range' ids hd
  have newRef : w.line.nextRef ≤ d.ref := le_of_map_eq_range' refs hd
  refine .made (Nat.le_trans later newId) fun e he same => ?_
  -- The references of the program line were given before.
  have given := (program.sound own (List.mem_of_getElem? found)).below e.ref
    (List.mem_map_of_mem he)
  exact absurd same (Nat.ne_of_lt (Nat.lt_of_lt_of_le given (Nat.le_trans le newRef)))

end Work

/-!
## Stamped machines
-/

namespace Machine

/-- A machine of a program, with stamped lines.  The token that a call puts its value in the place
of is no value. -/
structure Stamped (p : Program) (m : Machine) : Prop where
  program : m.program = p
  later : p.nextId ≤ m.nextId
  work : m.work.Stamped p m.nextId
  saved : ∀ c ∈ m.calls, c.saved.Stamped p m.nextId
  sites : ∀ c ∈ m.calls, ∀ d ∈ c.saved.line.cells, d.ref = c.nameRef →
    d.token.kind.isLiteral = false

variable {p : Program} {m : Machine}

theorem Stamped.withWork (stamped : m.Stamped p) {work : Work} {n : Nat}
    (good : work.Stamped p (m.nextId + n)) : Stamped p { m with work, nextId := m.nextId + n } where
  program := stamped.program
  later := Nat.le_add_right_of_le stamped.later
  work := good
  saved c hc := (stamped.saved c hc).mono (Nat.le_add_right _ _)
  sites := stamped.sites

theorem stable_stamped (program : p.Stamped) : Stable (Stamped p) := by
  intro m m' stamped change
  have ⟨same, later, work, saved, sites⟩ := stamped
  cases change with
  | aside => exact ⟨same, later, ⟨work.sound, work.distinct, work.below, work.stems⟩, saved, sites⟩
  | thin kept => exact ⟨same, later, work.thin kept, saved, sites⟩
  | answer whole other value =>
      exact stamped.withWork (work.answer program later whole other value)
  | draw made whole refs ids => exact stamped.withWork (work.draw program later made whole refs ids)
  | copy found purpose selected =>
      subst same
      exact ⟨rfl, later, Work.stamped_copy program found later purpose selected, saved, sites⟩
  | clear => exact ⟨same, later, Work.stamped_empty, saved, sites⟩
  | save c own whole ref other =>
      refine ⟨same, later, Work.stamped_empty, List.forall_mem_cons.2 ⟨own ▸ work, saved⟩,
        List.forall_mem_cons.2 ⟨fun d hd place => ?_, sites⟩⟩
      rw [own] at hd
      obtain rfl := List.inj_on_of_nodup_map work.sound.distinct hd (by rw [whole]; simp)
        (place.trans ref.symm)
      exact other
  | restore c calls own whole ref value =>
      obtain ⟨first, rest⟩ := List.forall_mem_cons.1 (own ▸ saved)
      obtain ⟨site, others⟩ := List.forall_mem_cons.1 (own ▸ sites)
      have other := site _ (by rw [whole]; simp) ref
      exact ⟨same, Nat.le_succ_of_le later, first.answer program later whole other value,
        fun d hd => (rest d hd).mono (Nat.le_succ _), others⟩

/-!
## Runs
-/

def works (m : Machine) : List Work :=
  m.work :: m.calls.map Call.saved

theorem stamped_after {source : String} (loaded : Program.load source = .ok p) (settings : Settings)
    {k : Nat} (reached : (Machine.start p settings).machine.after k = .ok m) : m.Stamped p := by
  have initial : (initial p settings).Stamped p :=
    ⟨rfl, Nat.le_refl _, Work.stamped_empty, List.forall_mem_nil _, List.forall_mem_nil _⟩
  exact (stable_stamped (p.stamped_of_load loaded)).after initial reached

theorem Stamped.works (stamped : m.Stamped p) : ∀ w ∈ m.works, w.Stamped p m.nextId :=
  List.forall_mem_cons.2 ⟨stamped.work, List.forall_mem_map.2 stamped.saved⟩

theorem nodup_words {ids : List Nat} {n : Nat} (distinct : ids.Nodup) (below : ∀ i ∈ ids, i < n)
    (fits : n < 2 ^ 32) :
    (ids.map UInt32.ofNat).Nodup ∧ ∀ i ∈ ids, UInt32.ofNat i < UInt32.ofNat n := by
  have value {i : Nat} (le : i ≤ n) : (UInt32.ofNat i).toNat = i :=
    UInt32.toNat_ofNat_of_lt' (Nat.lt_of_le_of_lt le fits)
  constructor
  · refine distinct.map_on fun i hi j hj same => ?_
    rw [← value (Nat.le_of_lt (below i hi)), ← value (Nat.le_of_lt (below j hj)), same]
  · intro i hi
    rw [UInt32.lt_iff_toNat_lt, value (Nat.le_of_lt (below i hi)), value (Nat.le_refl n)]
    exact below i hi

/-- In a state that a run reaches, no two tokens of a line have one identity, and none has the next
one.  The same is true of identities as words while there are enough words.  A token of a program
line has the identity that it has there. -/
theorem identities_unique {source : String} (loaded : Program.load source = .ok p)
    (settings : Settings) {k : Nat} (reached : (Machine.start p settings).machine.after k = .ok m) :
    (∀ w ∈ m.works, w.line.ids.Nodup ∧ ∀ i ∈ w.line.ids, i < m.nextId) ∧
    (m.nextId < 2 ^ 32 → ∀ w ∈ m.works, (w.line.ids.map UInt32.ofNat).Nodup ∧
      ∀ i ∈ w.line.ids, UInt32.ofNat i < UInt32.ofNat m.nextId) ∧
    ∀ w ∈ m.works, ∀ c ∈ w.line.cells, ∃ line, p.lines[w.index]? = some line ∧ c.Stems p line := by
  have stamped := (stamped_after loaded settings reached).works
  refine ⟨fun w hw => ⟨(stamped w hw).distinct, (stamped w hw).below⟩, fun fits w hw => ?_, ?_⟩
  · exact nodup_words (stamped w hw).distinct (stamped w hw).below fits
  · intro w hw c hc
    obtain ⟨line, found, -, stems⟩ := (stamped w hw).stems c hc
    exact ⟨line, found, stems⟩

def stampScript : String :=
  "def int twice(int n) \x7b\nreturn n * 2\n\x7d
x = 3\nsystem println f\"\x7bx\x7d!\", twice(x) + 1"

theorem identities_unique_stampScript :
    Program.load stampScript = .ok (programOf stampScript) ∧
      (stateOf stampScript 9).works.map (fun w => w.line.ids) =
        [[8, 34], [16, 17, 33, 19, 20, 21, 22, 23, 24, 25]] ∧
      (stateOf stampScript 9).nextId = 35 ∧
      (∀ w ∈ (stateOf stampScript 9).works, (w.line.ids.map UInt32.ofNat).Nodup ∧
        ∀ i ∈ w.line.ids, UInt32.ofNat i < UInt32.ofNat 35) ∧
      ∀ w ∈ (stateOf stampScript 9).works, ∀ c ∈ w.line.cells,
        ∃ line, (programOf stampScript).lines[w.index]? = some line ∧
          c.Stems (programOf stampScript) line := by
  have checked : (Program.load stampScript).toOption.isSome = true ∧
      ((Machine.start (programOf stampScript) {}).machine.after 9).toOption.isSome = true ∧
      (stateOf stampScript 9).works.map (fun w => w.line.ids) =
        [[8, 34], [16, 17, 33, 19, 20, 21, 22, 23, 24, 25]] ∧
      (stateOf stampScript 9).nextId = 35 := by
    decide +kernel
  obtain ⟨loads, runs, ids, next⟩ := checked
  have loaded : Program.load stampScript = .ok (programOf stampScript) :=
    Except.eq_ok_getD loads _
  have reached : (Machine.start (programOf stampScript) {}).machine.after 9 =
      .ok (stateOf stampScript 9) := Except.eq_ok_getD runs _
  obtain ⟨-, words, stems⟩ := identities_unique loaded {} reached
  rw [next] at words
  exact ⟨loaded, ids, next, words (by decide), stems⟩

end Machine

end LineScript

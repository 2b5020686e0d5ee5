import Mathlib.Data.List.Nodup
import LineScript.Proofs.Layout

/-!
# The positions of a program

`Program.placed` lists the tokens of a program with their positions, line by line.  A position is
followed by the next one of this list, over empty lines and the ends of lines, and a scan from a
position is the rest of the list (`Program.scanFrom_eq`).  No position comes twice if the references
of every line are distinct.
-/

namespace LineScript

/-- All tokens in the order of the program. -/
def Program.placed (p : Program) : List (Position × Token) :=
  locatedLines 0 p.lines

namespace Program

def positions (p : Program) : List Position :=
  p.placed.map Prod.fst

/-- References name at most one token of their line.  Whatever edits have made a line, its
references are distinct. -/
def Distinct (p : Program) : Prop :=
  ∀ line ∈ p.lines, line.refs.Nodup

def Before (p : Program) (a b : Position) : Prop :=
  ∃ front mid back, p.positions = front ++ a :: (mid ++ b :: back)

/-- What is met from a position on, if each position tells the following one. -/
inductive Visits (p : Program) : Option Position → List (Position × Token) → Prop where
  | done : Visits p none []
  | meet {pos : Position} {t : Token} {next : Option Position} {rest : List (Position × Token)}
      (here : p.tokenAt pos = .ok t) (asked : p.following pos = .ok next)
      (onward : Visits p next rest) : Visits p (some pos) ((pos, t) :: rest)

variable {p : Program} {i : Nat} {pos : Position} {t : Token} {line : Line} {lines : List Line}

theorem Visits.unique {start : Option Position} {walked walked' : List (Position × Token)}
    (visits : p.Visits start walked) (visits' : p.Visits start walked') : walked = walked' := by
  induction visits generalizing walked' with
  | done =>
      cases visits'
      rfl
  | meet here asked onward ih =>
      cases visits' with
      | meet here' asked' onward' =>
          rw [here] at here'
          rw [asked] at asked'
          cases here'
          cases asked'
          rw [ih onward']

/-!
## Each position once
-/

theorem map_snd_locatedLines (i : Nat) (lines : List Line) :
    (locatedLines i lines).map Prod.snd = lines.flatMap Line.tokens := by
  induction lines generalizing i with
  | nil => rfl
  | cons line lines ih =>
      rw [locatedLines, List.map_append, ih, List.flatMap_cons]
      simp [located, Line.tokens]

theorem line_of_mem_located {cells : List Cell} (member : (pos, t) ∈ located i cells) :
    pos.line = i := by
  obtain ⟨c, -, same⟩ := List.mem_map.1 member
  cases same
  rfl

theorem le_line_of_mem (member : (pos, t) ∈ locatedLines i lines) : i ≤ pos.line := by
  induction lines generalizing i with
  | nil => cases member
  | cons line lines ih =>
      rcases List.mem_append.1 member with here | later
      · exact Nat.le_of_eq (line_of_mem_located here).symm
      · exact Nat.le_of_succ_le (ih later)

theorem nodup_located {cells : List Cell} (distinct : (cells.map Cell.ref).Nodup) :
    ((located i cells).map Prod.fst).Nodup := by
  have same : (located i cells).map Prod.fst =
      (cells.map Cell.ref).map fun r => { line := i, token := r } := by
    simp [located]
  rw [same, List.Nodup, List.pairwise_map]
  refine distinct.imp ?_
  intro a b apart equal
  cases equal
  exact apart rfl

theorem nodup_locatedLines (distinct : ∀ line ∈ lines, line.refs.Nodup) :
    ((locatedLines i lines).map Prod.fst).Nodup := by
  induction lines generalizing i with
  | nil => exact .nil
  | cons line lines ih =>
      rw [locatedLines, List.map_append, List.nodup_append]
      refine ⟨nodup_located (distinct line (List.mem_cons_self ..)),
        ih fun line member => distinct line (List.mem_cons_of_mem _ member), ?_⟩
      -- A later line has a greater index.
      intro a here b later same
      obtain ⟨⟨a, t⟩, here', rfl⟩ := List.mem_map.1 here
      obtain ⟨⟨b, u⟩, later', rfl⟩ := List.mem_map.1 later
      have at_i := line_of_mem_located here'
      have above := le_line_of_mem later'
      simp only at same
      rw [same] at at_i
      omega

theorem nodup_positions (distinct : p.Distinct) : p.positions.Nodup :=
  nodup_locatedLines distinct

/-!
## Scans
-/

structure Holds (p : Program) (pos : Position) (t : Token) (front : List Line) (line : Line)
    (back : List Line) (before after : List Cell) : Prop where
  lines : p.lines = front ++ line :: back
  index : front.length = pos.line
  cells : line.cells = before ++ { ref := pos.token, token := t } :: after

theorem exists_holds (here : p.tokenAt pos = .ok t) :
    ∃ front line back before after, p.Holds pos t front line back before after := by
  unfold tokenAt lineAt at here
  cases found : p.lines[pos.line]? with
  | none => simp [found] at here
  | some line =>
      simp only [found, Except.bind_eq_bind, Except.bind_ok, Line.get] at here
      cases focused : line.focus pos.token with
      | error e => simp [focused] at here
      | ok f =>
          rw [focused, Except.map_ok_eq] at here
          obtain ⟨cells, ref⟩ := Line.focus_ok focused
          obtain ⟨bound, same⟩ := List.getElem?_eq_some_iff.1 found
          refine ⟨p.lines.take pos.line, line, p.lines.drop (pos.line + 1),
            f.before.reverse, f.after, ?_, ?_, ?_⟩
          · rw [← same, List.getElem_cons_drop, List.take_append_drop]
          · rw [List.length_take]
            omega
          · rw [← cells, Focus.cells, ← ref]
            cases here
            rfl

section Holds

variable {front back : List Line} {before after : List Cell}

theorem Holds.found (holds : p.Holds pos t front line back before after) :
    p.lines[pos.line]? = some line := by
  rw [holds.lines, ← holds.index]
  simp

theorem Holds.drop (holds : p.Holds pos t front line back before after) :
    p.lines.drop (pos.line + 1) = back := by
  rw [holds.lines, ← holds.index, List.drop_append]
  simp

theorem Holds.focus (holds : p.Holds pos t front line back before after) (distinct : p.Distinct) :
    line.focus pos.token =
      .ok { before := before.reverse, cell := { ref := pos.token, token := t }, after } :=
  Line.focus_eq (distinct line (by simp [holds.lines])) before holds.cells

theorem Holds.tokenAt (holds : p.Holds pos t front line back before after) (distinct : p.Distinct) :
    p.tokenAt pos = .ok t := by
  simp [Program.tokenAt, lineAt_eq holds.found, Line.get, holds.focus distinct]

theorem Holds.following (holds : p.Holds pos t front line back before after)
    (distinct : p.Distinct) :
    p.following pos = .ok (match after.head? with
      | some c => some { line := pos.line, token := c.ref }
      | none => p.firstFrom? (pos.line + 1)) := by
  simp only [Program.following, lineAt_eq holds.found, Line.next, holds.focus distinct, Focus.next?,
    Except.bind_eq_bind, Except.bind_ok, Except.map_ok_eq]
  cases after with
  | nil => rfl
  | cons c after => rfl

def laterThan (i : Nat) (after : List Cell) (back : List Line) : List (Position × Token) :=
  located i after ++ locatedLines (i + 1) back

theorem Holds.placed (holds : p.Holds pos t front line back before after) :
    p.placed = locatedLines 0 front ++ located pos.line before ++
      (pos, t) :: laterThan pos.line after back := by
  have cells : located pos.line line.cells =
      located pos.line before ++ (pos, t) :: located pos.line after := by
    simp [holds.cells, located]
  rw [Program.placed, holds.lines, locatedLines_append, Nat.zero_add, holds.index, locatedLines,
    cells, laterThan]
  simp

theorem Holds.scanFrom (holds : p.Holds pos t front line back before after)
    (distinct : p.Distinct) :
    p.scanFrom pos = .ok ((pos, t) :: laterThan pos.line after back) := by
  simp [Program.scanFrom, lineAt_eq holds.found, Line.cellsFrom, holds.focus distinct, holds.drop,
    laterThan, located]

theorem visits_cells (distinct : p.Distinct) (lines : p.lines = front ++ line :: back)
    (onward : p.Visits (p.firstFrom? (front.length + 1)) (locatedLines (front.length + 1) back))
    (before after : List Cell) (cells : line.cells = before ++ after) :
    p.Visits (match after.head? with
      | some c => some { line := front.length, token := c.ref }
      | none => p.firstFrom? (front.length + 1)) (laterThan front.length after back) := by
  induction after generalizing before with
  | nil => exact onward
  | cons c after ih =>
      have holds : p.Holds { line := front.length, token := c.ref } c.token front line back before
        after := ⟨lines, rfl, cells⟩
      have rest := ih (before ++ [c]) (by simp [cells])
      exact .meet (holds.tokenAt distinct) (holds.following distinct) rest

theorem visits_lines (distinct : p.Distinct) (front back : List Line)
    (lines : p.lines = front ++ back) :
    p.Visits (p.firstFrom? front.length) (locatedLines front.length back) := by
  induction back generalizing front with
  | nil =>
      have none : p.firstFrom? front.length = none := by
        simp [firstFrom?, lines, firstCell?]
      rw [none]
      exact .done
  | cons line back ih =>
      have onward := ih (front ++ [line]) (by simp [lines])
      rw [List.length_append, List.length_singleton] at onward
      have first : p.firstFrom? front.length = (match line.cells.head? with
          | some c => some { line := front.length, token := c.ref }
          | none => p.firstFrom? (front.length + 1)) := by
        have dropped : p.lines.drop front.length = line :: back := by simp [lines]
        have more : p.lines.drop (front.length + 1) = back := by
          rw [← List.tail_drop, dropped, List.tail_cons]
        rw [firstFrom?, firstFrom?, dropped, more, firstCell?, Line.first?]
        cases line.cells.head? <;> rfl
      rw [first]
      exact visits_cells distinct lines onward [] line.cells rfl

theorem Holds.visits (holds : p.Holds pos t front line back before after) (distinct : p.Distinct) :
    p.Visits (some pos) ((pos, t) :: laterThan pos.line after back) := by
  have onward := visits_lines distinct (front ++ [line]) back (by simp [holds.lines])
  rw [List.length_append, List.length_singleton] at onward
  have rest := visits_cells distinct holds.lines onward
    (before ++ [{ ref := pos.token, token := t }]) after (by simp [holds.cells])
  rw [holds.index] at rest
  exact .meet (holds.tokenAt distinct) (holds.following distinct) rest

end Holds

theorem scanFrom_eq (distinct : p.Distinct) (here : p.tokenAt pos = .ok t) :
    ∃ before after, p.placed = before ++ (pos, t) :: after ∧
      p.scanFrom pos = .ok ((pos, t) :: after) ∧ p.Visits (some pos) ((pos, t) :: after) := by
  obtain ⟨front, line, back, before, after, holds⟩ := exists_holds here
  exact ⟨_, _, holds.placed, holds.scanFrom distinct, holds.visits distinct⟩

theorem exists_line_of_mem (member : (pos, t) ∈ locatedLines i lines) :
    ∃ front line back before after, lines = front ++ line :: back ∧ i + front.length = pos.line ∧
      line.cells = before ++ { ref := pos.token, token := t } :: after := by
  induction lines generalizing i with
  | nil => cases member
  | cons line lines ih =>
      rcases List.mem_append.1 member with here | later
      · obtain ⟨c, inside, same⟩ := List.mem_map.1 here
        obtain ⟨before, after, cells⟩ := List.append_of_mem inside
        cases same
        exact ⟨[], line, lines, before, after, rfl, rfl, cells⟩
      · obtain ⟨front, line', back, before, after, rfl, index, cells⟩ := ih later
        refine ⟨line :: front, line', back, before, after, rfl, ?_, cells⟩
        rw [List.length_cons]
        omega

theorem tokenAt_of_mem (distinct : p.Distinct) (member : (pos, t) ∈ p.placed) :
    p.tokenAt pos = .ok t := by
  obtain ⟨front, line, back, before, after, lines, index, cells⟩ := exists_line_of_mem member
  rw [Nat.zero_add] at index
  exact Holds.tokenAt ⟨lines, index, cells⟩ distinct

theorem token_unique (distinct : p.Distinct) {u : Token} (first : (pos, t) ∈ p.placed)
    (second : (pos, u) ∈ p.placed) : t = u := by
  have same := (tokenAt_of_mem distinct first).symm.trans (tokenAt_of_mem distinct second)
  exact Except.ok.inj same

theorem eq_of_placed (distinct : p.Distinct) {front front' back back' : List (Position × Token)}
    (same : p.placed = front ++ (pos, t) :: back) (same' : p.placed = front' ++ (pos, t) :: back') :
    front = front' ∧ back = back' := by
  have nodup : p.placed.Nodup := List.Nodup.of_map Prod.fst (nodup_positions distinct)
  rw [same] at nodup same'
  obtain ⟨-, later, apart⟩ := List.nodup_append.1 nodup
  have first : (pos, t) ∉ front := fun member => apart _ member _ (List.mem_cons_self ..) rfl
  obtain ⟨rfl, -, rfl⟩ :=
    (List.append_cons_inj_of_notMem first (List.nodup_cons.1 later).1).1 same'
  exact ⟨rfl, rfl⟩

theorem scanFrom_of_placed (distinct : p.Distinct) {front back : List (Position × Token)}
    (same : p.placed = front ++ (pos, t) :: back) : p.scanFrom pos = .ok ((pos, t) :: back) := by
  have member : (pos, t) ∈ p.placed := by simp [same]
  have here := tokenAt_of_mem distinct member
  obtain ⟨front', back', same', scanned, -⟩ := scanFrom_eq distinct here
  obtain ⟨rfl, rfl⟩ := eq_of_placed distinct same same'
  exact scanned

/-!
## Before and after
-/

theorem before_of_placed {a b : Position} {t u : Token} {front mid back : List (Position × Token)}
    (same : p.placed = front ++ (a, t) :: (mid ++ (b, u) :: back)) : p.Before a b :=
  ⟨front.map Prod.fst, mid.map Prod.fst, back.map Prod.fst, by simp [positions, same]⟩

theorem Before.exists_placed {a b : Position} (before : p.Before a b) :
    ∃ t u front mid back, p.placed = front ++ (a, t) :: (mid ++ (b, u) :: back) := by
  obtain ⟨x, y, z, split⟩ := before
  obtain ⟨front, rest, same, -, first⟩ := List.map_eq_append_iff.1 split
  obtain ⟨⟨a, t⟩, rest, rfl, rfl, later⟩ := List.map_eq_cons_iff.1 first
  obtain ⟨mid, rest, rfl, -, last⟩ := List.map_eq_append_iff.1 later
  obtain ⟨⟨b, u⟩, back, rfl, rfl, -⟩ := List.map_eq_cons_iff.1 last
  exact ⟨t, u, front, mid, back, same⟩

theorem Before.idxOf_lt {a b : Position} (before : p.Before a b) (distinct : p.Distinct) :
    p.positions.idxOf a < p.positions.idxOf b := by
  obtain ⟨x, y, z, split⟩ := before
  have nodup := nodup_positions distinct
  rw [split] at nodup ⊢
  obtain ⟨-, later, apart⟩ := List.nodup_append.1 nodup
  have first : a ∉ x := fun member => apart a member a (by simp) rfl
  have second : b ∉ x := fun member => apart b member b (by simp) rfl
  have other : a ≠ b := by
    rintro rfl
    exact (List.nodup_cons.1 later).1 (by simp)
  rw [List.idxOf_append_of_notMem first, List.idxOf_append_of_notMem second, List.idxOf_cons_self,
    List.idxOf_cons_ne _ other]
  omega

theorem Before.asymm {a b : Position} (before : p.Before a b) (distinct : p.Distinct) :
    ¬ p.Before b a := by
  intro after
  have first := before.idxOf_lt distinct
  have second := after.idxOf_lt distinct
  omega

theorem before_or_before {a b : Position} {t u : Token} (first : (a, t) ∈ p.placed)
    (second : (b, u) ∈ p.placed) (other : a ≠ b) : p.Before a b ∨ p.Before b a := by
  obtain ⟨front, back, same⟩ := List.append_of_mem first
  rw [same, List.mem_append, List.mem_cons] at second
  rcases second with earlier | here | later
  · obtain ⟨x, y, rfl⟩ := List.append_of_mem earlier
    rw [List.append_assoc, List.cons_append] at same
    exact .inr (before_of_placed same)
  · exact absurd (Prod.mk.inj here).1.symm other
  · obtain ⟨x, y, rfl⟩ := List.append_of_mem later
    exact .inl (before_of_placed same)

end Program

end LineScript

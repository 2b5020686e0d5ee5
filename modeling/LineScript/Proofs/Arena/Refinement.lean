import LineScript.Proofs.Cells
import LineScript.Proofs.Removal
import LineScript.Proofs.Safety.Reachable

/-!
# Lines and the arenas that carry them

The operations on lines work on a list of cells and a counter of references.  An arena carries a
line if it represents the cells and has handed out as many references (`Arena.Carries`).  The same
edit of both then comes to the same: the arena carries the edited line, or both fault at the same
reference.  This takes a reference for a new token and sums of priorities that fit 32 bits.
-/

namespace LineScript

variable {a a' : Arena} {l l' : Line} {o : Overflow} {r : Ref} {c : Cell} {amount : Int32}
  {before after : List Cell}

structure Arena.Carries (a : Arena) (l : Line) : Prop where
  represents : a.Represents l.cells
  size : a.slots.size = l.nextRef

theorem Arena.Carries.distinct (carries : a.Carries l) : l.Distinct :=
  carries.represents.distinct

theorem Arena.Carries.cases (carries : a.Carries l) (r : Ref) :
    (∃ before c after, l.cells = before ++ c :: after ∧ c.ref = r ∧
      l.focus r = .ok ⟨before.reverse, c, after⟩) ∨
    l.focus r = .error (.unlinked r) ∧ a.contains r = false := by
  by_cases member : r ∈ l.refs
  · obtain ⟨before, c, after, found⟩ := Edit.exists_found carries.distinct member
    obtain ⟨split, rfl, -, -⟩ := found
    exact .inl ⟨before, c, after, split, rfl, Line.focus_eq carries.distinct before split⟩
  · refine .inr ⟨Line.focus_of_not_mem member, ?_⟩
    rw [← Bool.not_eq_true, carries.represents.contains_iff]
    exact member

/-!
## Reading
-/

def Focus.node (f : Focus) : Node :=
  { token := f.cell.token, prev := f.prev?.map Cell.ref, next := f.next?.map Cell.ref }

theorem Arena.Carries.find_eq (carries : a.Carries l) (r : Ref) :
    a.find r = (l.focus r).map Focus.node := by
  rcases carries.cases r with ⟨before, c, after, split, rfl, found⟩ | ⟨missed, empty⟩
  · have slot := (split ▸ carries.represents).slot
    rw [Arena.find_of_slot slot, found, Arena.lastOf_eq_getLast?, Arena.firstOf_eq_head?]
    simp [Except.map, Focus.node, Focus.prev?, Focus.next?]
  · rw [Arena.find_unlinked empty, missed]
    rfl

theorem Arena.Carries.reads (carries : a.Carries l) :
    a.cells = .ok l.cells ∧ ∀ r, a.get r = l.get r ∧ a.next r = l.next r ∧ a.prev r = l.prev r := by
  refine ⟨carries.represents.cells_eq, fun r => ?_⟩
  rw [Arena.get, Arena.next, Arena.prev, Line.get, Line.next, Line.prev, carries.find_eq]
  cases l.focus r <;> exact ⟨rfl, rfl, rfl⟩

/-!
## Editing
-/

def Edit.onLine (l : Line) : Edit → Except Fault Line
  | .append t => .ok (l.append t)
  | .insertBefore r t => l.insertBefore r t
  | .insertAfter r t => l.insertAfter r t
  | .insertAt index t => l.insertAt index t
  | .remove r => l.remove r
  | .replace r t => l.replace r t
  | .dropFrom r => l.dropFrom r
  | .dropThrough r => .ok (l.dropThrough r)
  | .keepRange first last => l.keepRange first last
  | .clear => .ok l.clear
  | .boostInside opening closing amount => l.boostInside opening closing amount.toInt
  | .setPriority r priority => l.setPriority r priority.toInt

def Edit.Within (l : Line) : Edit → Prop
  | .boostInside _ _ amount => ∀ c ∈ l.cells, (c.token.boost amount.toInt).FitsWord
  | e => e.token?.isSome → l.nextRef < 2 ^ 32

def Edit.runEach (o : Overflow) : List Edit → Arena.Change Unit
  | [] => return
  | e :: edits => do
      let _ ← e.run o
      runEach o edits

def Edit.EachWithin (l : Line) : List Edit → Prop
  | [] => True
  | e :: edits => e.Within l ∧ ∀ l', e.onLine l = .ok l' → EachWithin l' edits

namespace Arena

/-- A change of an arena leaves one that carries the line, or stops with the fault. -/
def Agrees {α : Type} (x : Change α) (a : Arena) : Except Fault Line → Prop
  | .ok l => ∃ v a', x a = .ok v a' ∧ a'.Carries l
  | .error fault => ∃ a', x a = .error fault a'

variable {α : Type} {x : Change α}

theorem Leaves.agrees {v : α} {cells : List Cell} {n : Nat} (leaves : Leaves x a v cells n)
    (same : l' = { cells, nextRef := n }) : Agrees x a (.ok l') := by
  obtain ⟨a', ran, represents, size⟩ := leaves
  subst same
  exact ⟨v, a', ran, represents, size⟩

theorem Agrees.quiet {result : Except Fault Line} (agrees : Agrees x a result) :
    Agrees (Edit.quiet x) a result := by
  cases result with
  | ok l =>
      obtain ⟨v, a', ran, carries⟩ := agrees
      exact ⟨none, a', bind_of_ok ran _, carries⟩
  | error fault =>
      obtain ⟨a', ran⟩ := agrees
      exact ⟨a', bind_of_error ran _⟩

theorem Agrees.of_bind_ok {β : Type} {v : α} {f : α → Change β} {result : Except Fault Line}
    (ran : x a = .ok v a') (onward : Agrees (f v) a' result) : Agrees (x >>= f) a result := by
  have same := bind_of_ok ran f
  cases result with
  | ok l =>
      obtain ⟨w, a₂, ran', carries⟩ := onward
      exact ⟨w, a₂, same.trans ran', carries⟩
  | error fault =>
      obtain ⟨a₂, ran'⟩ := onward
      exact ⟨a₂, same.trans ran'⟩

theorem Carries.agrees_of_focus (carries : a.Carries l) {g : Focus → Line}
    (missing : a.contains r = false → ∃ a', x a = .error (.unlinked r) a')
    (here : ∀ before c after, l.cells = before ++ c :: after → c.ref = r →
      Agrees x a (.ok (g ⟨before.reverse, c, after⟩))) :
    Agrees x a ((l.focus r).map g) := by
  rcases carries.cases r with ⟨before, c, after, split, ref, found⟩ | ⟨missed, empty⟩
  · rw [found]
    exact here before c after split ref
  · rw [missed]
    exact missing empty

theorem raised_eq_boost {t : Token} (fits : (t.boost amount.toInt).FitsWord) :
    t.raised amount = t.boost amount.toInt := by
  obtain ⟨low, high⟩ := fits
  have sum : (Int32.ofInt t.priority + amount).toInt = t.priority + amount.toInt := by
    rw [Int32.toInt_add, Int32.toInt_ofInt, Int.bmod_add_bmod]
    exact Int.bmod_eq_of_le low high
  rw [Token.raised, Token.boost, sum]

theorem boostUntil_eq_append (closing : Ref) (amount : Int) (cells : List Cell) :
    Line.boostUntil closing amount cells =
      (cells.takeWhile fun c => c.ref ≠ closing).map (Line.boostCell amount) ++
        cells.dropWhile fun c => c.ref ≠ closing := by
  induction cells with
  | nil => rfl
  | cons c cells ih =>
      by_cases met : c.ref = closing <;> simp [Line.boostUntil, met, ih]

theorem Carries.boostInside (carries : a.Carries l) (opening closing : Ref)
    (fits : ∀ c ∈ l.cells, (c.token.boost amount.toInt).FitsWord) :
    Agrees (Arena.boostInside o opening closing amount) a
      (l.boostInside opening closing amount.toInt) := by
  refine carries.agrees_of_focus (fun empty => ⟨a, bind_of_error (node_of_empty empty) _⟩) ?_
  rintro before c after split rfl
  have raised : ∀ d ∈ after, d.token.raised amount = d.token.boost amount.toInt :=
    fun d hd => raised_eq_boost (fits d (by rw [split]; simp [hd]))
  have inner : ∀ d ∈ after.takeWhile fun d => d.ref ≠ closing, d ∈ after :=
    fun d hd => (List.takeWhile_sublist _).subset hd
  have boosted := ((split ▸ carries.represents).boostInside o closing amount).1 fun d hd _ => by
    rw [raised d (inner d hd)]
    rfl
  have same : (after.takeWhile fun d => d.ref ≠ closing).map (raiseCell amount) =
      (after.takeWhile fun d => d.ref ≠ closing).map (Line.boostCell amount.toInt) :=
    List.map_congr_left fun d hd => by rw [raiseCell, raised d (inner d hd), Line.boostCell]
  rw [same, ← boostUntil_eq_append] at boosted
  refine boosted.agrees ?_
  simp [Line.withCells, Focus.cells, carries.size]

theorem Carries.keepRange (carries : a.Carries l) (first last : Ref) :
    Agrees (Arena.keepRange first last) a (l.keepRange first last) := by
  rw [Line.keepRange, Line.dropBefore, Line.cellsFrom]
  rcases carries.cases first with ⟨before, c, after, split, rfl, found⟩ | ⟨missed, empty⟩
  · have represents : a.Represents (before ++ c :: after) := split ▸ carries.represents
    have distinct : (l.withCells (c :: after)).Distinct := by
      have all := carries.distinct
      rw [Line.Distinct, Line.refs, split, List.map_append] at all
      exact (List.nodup_append.1 all).2.1
    rw [found]
    change Agrees _ a (((l.withCells (c :: after)).focus last).map
      fun f => l.withCells (f.before.reverse ++ [f.cell]))
    by_cases member : last ∈ (l.withCells (c :: after)).refs
    · obtain ⟨inside, d, rest, found'⟩ := Edit.exists_found distinct member
      obtain ⟨split', rfl, -, -⟩ := found'
      rw [Line.focus_eq distinct inside split']
      refine (represents.keepRange rfl split').agrees ?_
      simp [Line.withCells, carries.size]
    · rw [Line.focus_of_not_mem member]
      obtain ⟨a', ran, -⟩ := represents.keepRange_unlinked member
      exact ⟨a', ran⟩
  · rw [missed]
    exact ⟨a, bind_of_error (bind_of_error (node_of_empty empty) _) _⟩

theorem Carries.dropBefore (carries : a.Carries l) (r : Ref) :
    Agrees (Arena.dropBefore r) a (l.dropBefore r) := by
  have same : l.dropBefore r = (l.focus r).map fun f => l.withCells (f.cell :: f.after) := by
    rw [Line.dropBefore, Line.cellsFrom]
    cases l.focus r <;> rfl
  rw [same]
  refine carries.agrees_of_focus (fun empty => ⟨a, bind_of_error (node_of_empty empty) _⟩) ?_
  rintro before c after split rfl
  refine (split ▸ carries.represents).dropBefore.agrees ?_
  rw [Line.withCells, carries.size]

theorem Carries.modify (carries : a.Carries l) (r : Ref) (change : Token → Token) :
    Agrees (Arena.setToken r fun t => .ok (change t)) a (l.modify r change) := by
  refine carries.agrees_of_focus (fun empty => ⟨a, bind_of_error (node_of_empty empty) _⟩) ?_
  rintro before c after split rfl
  have changed : (fun t => (.ok (change t) : Except Fault Token)) c.token = .ok (change c.token) :=
    rfl
  refine ((split ▸ carries.represents).setToken changed).agrees ?_
  simp [Line.withCells, Focus.cells, carries.size]

/-- An edit comes to the same on a line and on an arena that carries it. -/
theorem Carries.run (carries : a.Carries l) {e : Edit} (within : e.Within l) :
    Agrees (e.run o) a (e.onLine l) := by
  have missing (r : Ref) (looked : e.looksUp? = some r) (empty : a.contains r = false) :
      ∃ a', e.run o a = .error (.unlinked r) a' := ⟨a, Edit.run_unlinked looked empty⟩
  have room (adds : e.token?.isSome) (plain : e.Within l = (e.token?.isSome → l.nextRef < 2 ^ 32)) :
      a.slots.size < UInt32.size := by
    rw [plain] at within
    exact carries.size ▸ within adds
  cases e with
  | append t =>
      refine (Edit.Leaves.giving (carries.represents.append (room rfl rfl) t)).agrees ?_
      simp [Line.append, Line.newCell, Line.withCells, carries.size]
  | insertBefore r t =>
      refine carries.agrees_of_focus (missing r rfl) ?_
      rintro before c after split rfl
      have represents := split ▸ carries.represents
      refine (Edit.Leaves.giving (represents.insertBefore (room rfl rfl) t)).agrees ?_
      simp [Line.newCell, Line.withCells, Focus.cells, carries.size]
  | insertAfter r t =>
      refine carries.agrees_of_focus (missing r rfl) ?_
      rintro before c after split rfl
      have represents := split ▸ carries.represents
      refine (Edit.Leaves.giving (represents.insertAfter (room rfl rfl) t)).agrees ?_
      simp [Line.newCell, Line.withCells, Focus.cells, carries.size]
  | insertAt index t =>
      rw [Edit.onLine, Line.insertAt, Line.length]
      by_cases inside : index ≤ l.cells.length
      · rw [if_pos inside]
        refine (Edit.Leaves.giving (carries.represents.insertAt inside (room rfl rfl) t)).agrees ?_
        simp [Line.withCells, carries.size]
      · rw [if_neg inside]
        have beyond := carries.represents.insertAt_beyond (Nat.lt_of_not_le inside) t
        exact ⟨a, bind_of_error beyond _⟩
  | remove r =>
      refine carries.agrees_of_focus (missing r rfl) ?_
      rintro before c after split rfl
      refine (Edit.Leaves.quiet (split ▸ carries.represents).remove).agrees ?_
      simp [Line.withCells, carries.size]
  | replace r t =>
      refine carries.agrees_of_focus (missing r rfl) ?_
      rintro before c after split rfl
      refine (Edit.Leaves.quiet ((split ▸ carries.represents).replace t)).agrees ?_
      simp [Line.withCells, Focus.cells, carries.size]
  | dropFrom r =>
      refine carries.agrees_of_focus (missing r rfl) ?_
      rintro before c after split rfl
      refine (Edit.Leaves.quiet (split ▸ carries.represents).dropFrom).agrees ?_
      simp [Line.withCells, carries.size]
  | dropThrough r =>
      refine (Edit.Leaves.quiet (carries.represents.dropThrough r)).agrees ?_
      rw [Line.dropThrough, Line.withCells, carries.size]
  | keepRange first last => exact (carries.keepRange first last).quiet
  | clear =>
      refine (Edit.Leaves.quiet (represents_clear a)).agrees ?_
      rw [Line.clear, Line.withCells, carries.size]
  | boostInside opening closing amount => exact (carries.boostInside opening closing within).quiet
  | setPriority r priority =>
      refine carries.agrees_of_focus (missing r rfl) ?_
      rintro before c after split rfl
      refine (Edit.Leaves.quiet ((split ▸ carries.represents).setPriority priority)).agrees ?_
      simp [Line.withCells, Focus.cells, carries.size]

theorem Carries.runEach (carries : a.Carries l) {edits : List Edit}
    (within : Edit.EachWithin l edits) :
    Agrees (Edit.runEach o edits) a (edits.foldlM Edit.onLine l) := by
  induction edits generalizing a l with
  | nil => exact ⟨(), a, rfl, carries⟩
  | cons e edits ih =>
      have first := carries.run (o := o) within.1
      rw [List.foldlM_cons]
      cases edited : e.onLine l with
      | ok l' =>
          rw [edited] at first
          obtain ⟨v, a', ran, carries'⟩ := first
          exact Agrees.of_bind_ok ran (ih carries' (within.2 l' edited))
      | error fault =>
          rw [edited] at first
          obtain ⟨a', ran⟩ := first
          exact ⟨a', bind_of_error ran _⟩

/-!
## The lines of a run
-/

theorem exists_represents {cells : List Cell} (distinct : (cells.map Cell.ref).Nodup) {n : Nat}
    (below : ∀ r ∈ cells.map Cell.ref, r < n) : ∃ a : Arena, a.Represents cells ∧
    a.slots.size = n := by
  induction cells with
  | nil =>
      refine ⟨{ slots := Array.replicate n none }, ⟨rfl, rfl, trivial, .nil, ?_⟩, by simp⟩
      intro r used
      rw [contains, slot?, Array.getElem?_replicate] at used
      split at used <;> cases used
  | cons c cells ih =>
      obtain ⟨new, distinct⟩ := List.nodup_cons.1 distinct
      obtain ⟨a, represents, size⟩ := ih distinct fun r hr => below r (List.mem_cons_of_mem _ hr)
      have whole : a.Represents ([] ++ cells) := represents
      have slot := slot?_withSlot (size ▸ below c.ref (List.mem_cons_self ..))
        (some { token := c.token, prev := none, next := firstOf cells none })
      have pending : (a.withSlot c.ref (some ⟨c.token, none, firstOf cells none⟩)).Pending []
          (firstOf cells none) none c cells := by
        refine ⟨whole.halves.congr rfl rfl fun r hr => ?_, ?_, new, fun r used => ?_⟩
        · rw [slot, if_neg]
          rintro rfl
          exact new hr
        · rw [slot, if_pos rfl]
          rfl
        · by_cases same : r = c.ref
          · exact .inl same
          · rw [contains, slot, if_neg same] at used
            exact .inr (represents.occupied r used)
      obtain ⟨a₁, -, pending₁, size₁⟩ := pending.setNext
      obtain ⟨a₂, -, pending₂, size₂⟩ := pending₁.setPrev
      exact ⟨a₂, pending₂.represents, by rw [size₂, size₁, size_withSlot, size]⟩

end Arena

theorem Line.Sound.carried (sound : l.Sound) : ∃ a : Arena, a.Carries l := by
  obtain ⟨a, represents, size⟩ := Arena.exists_represents sound.distinct sound.below
  exact ⟨a, represents, size⟩

/-- Arenas can carry the lines of a run, and then edits come to the same on both. -/
theorem Machine.lines_carried {source : String} {p : Program} (loaded : Program.load source = .ok p)
    (settings : Settings) {k : Nat} {m : Machine}
    (reached : (Machine.start p settings).machine.after k = .ok m) :
    ∀ line ∈ m.lines, ∃ a : Arena, a.Carries line ∧
      ∀ edits : List Edit, Edit.EachWithin line edits →
        Arena.Agrees (Edit.runEach o edits) a (edits.foldlM Edit.onLine line) := by
  obtain ⟨n, nests⟩ := p.exists_nestsBelow
  intro line member
  obtain ⟨a, carries⟩ := ((sane_after loaded settings nests reached).line_sound line member).carried
  exact ⟨a, carries, fun _ => carries.runEach⟩

end LineScript

import Mathlib.Data.List.TakeWhile
import LineScript.Line

/-!
# Edits by reference

A look-up by reference takes a line apart at the one cell that has it.  So an edit by reference is
one of the cells: it makes those that its place in the line says, and where it does not, it comes to
a fault, and some reference names two cells of the line (`Line.Becomes`).
-/

namespace LineScript

/-!
## Looking up a cell
-/

namespace Focus

theorem find?_append {r : Ref} {passed before after : List Cell} {c : Cell} (here : c.ref = r)
    (notBefore : ∀ b ∈ before, b.ref ≠ r) :
    find? r passed (before ++ c :: after) =
      some { before := before.reverse ++ passed, cell := c, after } := by
  induction before generalizing passed with
  | nil => simp [find?, here]
  | cons b before ih =>
      have other : b.ref ≠ r := notBefore b (by simp)
      rw [List.cons_append, find?, if_neg other, ih (fun b hb => notBefore b (by simp [hb]))]
      simp

theorem eq_of_prev? {f : Focus} {c : Cell} (prev : f.prev? = some c) :
    f.before = c :: f.before.tail := by
  obtain ⟨rest, same⟩ := List.head?_eq_some_iff.1 prev
  rw [same]
  rfl

theorem eq_of_next? {f : Focus} {c : Cell} (next : f.next? = some c) :
    f.after = c :: f.after.tail := by
  obtain ⟨rest, same⟩ := List.head?_eq_some_iff.1 next
  rw [same]
  rfl

end Focus

namespace Line

variable {l l' l'' : Line} {r first last : Ref} {c d : Cell} {before after : List Cell}

theorem refs_eq_append {f : Focus} (same : f.cells = l.cells) :
    l.refs = f.before.reverse.map Cell.ref ++ f.cell.ref :: f.after.map Cell.ref := by
  rw [refs, ← same, Focus.cells, List.map_append, List.map_cons]

theorem focus?_eq_some {f : Focus} (distinct : l.refs.Nodup) (same : f.cells = l.cells) :
    l.focus? f.cell.ref = some f := by
  have notBefore : ∀ b ∈ f.before.reverse, b.ref ≠ f.cell.ref := by
    rw [refs_eq_append same, List.nodup_append] at distinct
    intro b hb
    exact distinct.2.2 b.ref (List.mem_map_of_mem hb) f.cell.ref (by simp)
  rw [focus?, ← same, Focus.cells, Focus.find?_append rfl notBefore]
  simp

theorem focus_ok_iff {f : Focus} :
    l.focus r = .ok f ↔ l.focus? r = some f ∧ ∀ d ∈ f.after, d.ref ≠ r := by
  unfold focus
  cases l.focus? r with
  | none => simp
  | some g =>
      by_cases again : ∃ d ∈ g.after, d.ref = r
      · have late : g.after.any (fun d => d.ref = r) = true := by simpa using again
        simp only [late, if_true, Option.some.injEq]
        refine ⟨nofun, ?_⟩
        rintro ⟨rfl, once⟩
        obtain ⟨d, hd, same⟩ := again
        exact absurd same (once d hd)
      · have late : g.after.any (fun d => d.ref = r) = false := by simpa using again
        simp only [late, Bool.false_eq_true, if_false, Except.ok.injEq, Option.some.injEq]
        refine ⟨?_, And.left⟩
        rintro rfl
        exact ⟨rfl, fun d hd same => again ⟨d, hd, same⟩⟩

theorem focus_ok {f : Focus} (found : l.focus r = .ok f) : f.cells = l.cells ∧ f.cell.ref = r :=
  have located := (focus_ok_iff.1 found).1
  ⟨cells_focus? located, ref_focus? located⟩

theorem focus_of_once {f : Focus} (same : f.cells = l.cells)
    (left : ∀ b ∈ f.before, b.ref ≠ f.cell.ref) (right : ∀ b ∈ f.after, b.ref ≠ f.cell.ref) :
    l.focus f.cell.ref = .ok f := by
  have located : l.focus? f.cell.ref = some f := by
    rw [focus?, ← same, Focus.cells,
      Focus.find?_append rfl fun b hb => left b (List.mem_reverse.1 hb)]
    simp
  rw [focus, located]
  simpa using right

theorem focus_eq_ok {f : Focus} (distinct : l.refs.Nodup) (same : f.cells = l.cells) :
    l.focus f.cell.ref = .ok f := by
  rw [refs_eq_append same, List.nodup_append, List.nodup_cons] at distinct
  refine focus_of_once same (fun b hb => ?_) fun b hb eq => ?_
  · exact distinct.2.2 b.ref (List.mem_map_of_mem (List.mem_reverse.2 hb)) f.cell.ref (by simp)
  · exact distinct.2.1.1 (eq ▸ List.mem_map_of_mem hb)

theorem focus_of_not_mem (missing : r ∉ l.refs) : l.focus r = .error (.unlinked r) := by
  rw [focus, focus?_eq_none_iff.2 missing]

theorem focus_of_focus? {f : Focus} (distinct : l.refs.Nodup) (found : l.focus? r = some f) :
    l.focus r = .ok f :=
  ref_focus? found ▸ focus_eq_ok distinct (cells_focus? found)

theorem focus_eq (distinct : l.refs.Nodup) (before : List Cell)
    (cells : l.cells = before ++ c :: after) :
    l.focus c.ref = .ok { before := before.reverse, cell := c, after } :=
  focus_eq_ok (f := ⟨before.reverse, c, after⟩) distinct (by simp [Focus.cells, cells])

theorem parts_unique {front back : List Cell} (same : before ++ c :: after = front ++ d :: back)
    (here : d.ref = c.ref) (early : ∀ b ∈ front, b.ref ≠ c.ref) (late : ∀ b ∈ back, b.ref ≠ c.ref) :
    before = front ∧ c = d ∧ after = back := by
  rcases List.append_eq_append_iff.1 same with ⟨mid, hfront, hback⟩ | ⟨mid, hbefore, hback⟩
  · cases mid with
    | nil =>
        obtain ⟨rfl, rfl⟩ := List.cons.inj hback
        exact ⟨by rw [hfront, List.append_nil], rfl, rfl⟩
    | cons b mid =>
        obtain ⟨rfl, -⟩ := List.cons.inj hback
        exact absurd rfl (early c (by simp [hfront]))
  · cases mid with
    | nil =>
        obtain ⟨rfl, rfl⟩ := List.cons.inj hback
        exact ⟨by rw [hbefore, List.append_nil], rfl, rfl⟩
    | cons b mid =>
        obtain ⟨-, rfl⟩ := List.cons.inj hback
        exact absurd rfl (late c (by simp))

/-- A cell that has its reference for itself is found where it is. -/
theorem focus_once (cells : l.cells = before ++ c :: after) :
    (l.focus c.ref = .ok { before := before.reverse, cell := c, after } ∧
      ∀ b ∈ before ++ after, b.ref ≠ c.ref) ∨
    ¬ l.refs.Nodup ∧ l.focus c.ref = .error (.unlinked c.ref) := by
  by_cases once : ∀ b ∈ before ++ after, b.ref ≠ c.ref
  · refine .inl ⟨focus_of_once (f := ⟨before.reverse, c, after⟩)
      (by simp [Focus.cells, cells]) ?_ ?_,
      once⟩
    · exact fun b hb => once b (List.mem_append_left _ (List.mem_reverse.1 hb))
    · exact fun b hb => once b (List.mem_append_right _ hb)
  refine .inr ⟨fun distinct => once ?_, ?_⟩
  · rw [refs, cells, List.map_append, List.map_cons, List.nodup_append, List.nodup_cons] at distinct
    intro b hb eq
    rcases List.mem_append.1 hb with hb | hb
    · exact distinct.2.2 b.ref (List.mem_map_of_mem hb) c.ref (by simp) eq
    · exact distinct.2.1.1 (eq ▸ List.mem_map_of_mem hb)
  -- The first cell of the reference has another one after it, or else it would be this one.
  obtain ⟨x, found⟩ : ∃ x, l.cells.find? (fun b => b.ref = c.ref) = some x := by
    rw [← Option.isSome_iff_exists, List.find?_isSome]
    exact ⟨c, by simp [cells], by simp⟩
  obtain ⟨here, front, back, same, early⟩ := List.find?_eq_some_iff_append.1 found
  have here : x.ref = c.ref := by simpa using here
  have early : ∀ b ∈ front, b.ref ≠ c.ref := fun b hb => by simpa using early b hb
  have again : ∃ b ∈ back, b.ref = c.ref := by
    refine Classical.byContradiction fun none => once ?_
    have late : ∀ b ∈ back, b.ref ≠ c.ref := fun b hb eq => none ⟨b, hb, eq⟩
    obtain ⟨rfl, -, rfl⟩ := parts_unique (cells ▸ same) here early late
    exact fun b hb => (List.mem_append.1 hb).elim (early b) (late b)
  rw [focus, focus?, same, Focus.find?_append here early]
  simpa using again

theorem focus_cases (cells : l.cells = before ++ c :: after) :
    l.focus c.ref = .ok { before := before.reverse, cell := c, after } ∨
      ¬ l.refs.Nodup ∧ l.focus c.ref = .error (.unlinked c.ref) :=
  (focus_once cells).imp_left And.left

/-!
## Edits
-/

/-- The change makes a line, or comes to a fault and a reference names two cells. -/
def Becomes (change : Line → Except Fault Line) (l l' : Line) : Prop :=
  change l = .ok l' ∨ ¬ l.refs.Nodup ∧ ∃ fault, change l = .error fault

theorem becomes_of_focus {g : Focus → Line} (cells : l.cells = before ++ c :: after) :
    Becomes (fun l => (l.focus c.ref).map g) l
      (g { before := before.reverse, cell := c, after }) := by
  rcases focus_cases cells with found | ⟨twice, missed⟩
  · exact .inl (by simp only [found]; rfl)
  · exact .inr ⟨twice, _, by simp only [missed]; rfl⟩

theorem becomes_remove (cells : l.cells = before ++ c :: after) :
    Becomes (fun l => l.remove c.ref) l (l.withCells (before ++ after)) := by
  have removed := becomes_of_focus (g := fun f => l.withCells (f.before.reverse ++ f.after)) cells
  simpa [Becomes, remove] using removed

theorem becomes_modify (cells : l.cells = before ++ c :: after) (change : Token → Token) :
    Becomes (fun l => l.modify c.ref change) l
      (l.withCells (before ++ { c with token := change c.token } :: after)) := by
  have changed := becomes_of_focus (g := fun f => l.withCells
    ({ f with cell := { f.cell with token := change f.cell.token } } : Focus).cells) cells
  simpa [Becomes, modify, Focus.cells] using changed

theorem becomes_insertBefore (cells : l.cells = before ++ c :: after) (t : Token) :
    Becomes (fun l => l.insertBefore c.ref t) l
      { cells := before ++ { ref := l.nextRef, token := t } :: c :: after
        nextRef := l.nextRef + 1 } := by
  have put := becomes_of_focus (g := fun f => (l.newCell t).2.withCells
    ({ f with before := (l.newCell t).1 :: f.before } : Focus).cells) cells
  simpa [Becomes, insertBefore, Focus.cells, newCell, withCells] using put

@[simp] theorem ref_boostCell (amount : Int) (c : Cell) : (boostCell amount c).ref = c.ref := rfl

theorem map_boostUntil {β : Type} {g : Cell → β} {amount : Int}
    (same : ∀ c, g (boostCell amount c) = g c)
    (closing : Ref) (cells : List Cell) :
    (boostUntil closing amount cells).map g = cells.map g := by
  induction cells with
  | nil => rfl
  | cons c cells ih => by_cases met : c.ref = closing <;> simp [boostUntil, met, ih, same]

@[simp] theorem map_ref_boostUntil (closing : Ref) (amount : Int) (cells : List Cell) :
    (boostUntil closing amount cells).map Cell.ref = cells.map Cell.ref :=
  map_boostUntil (ref_boostCell amount) closing cells

theorem countP_boostUntil {q : Cell → Bool} {amount : Int}
    (same : ∀ c, q (boostCell amount c) = q c)
    (closing : Ref) (cells : List Cell) :
    (boostUntil closing amount cells).countP q = cells.countP q := by
  have counted := congrArg (List.countP id) (map_boostUntil same closing cells)
  rwa [List.countP_map, List.countP_map] at counted

theorem boostUntil_append (closing : Cell) (amount : Int) (inner rest : List Cell) :
    boostUntil closing.ref amount (inner ++ closing :: rest) =
      boostUntil closing.ref amount inner ++ closing :: rest := by
  induction inner with
  | nil => simp [boostUntil]
  | cons c inner ih => by_cases met : c.ref = closing.ref <;> simp [boostUntil, met, ih]

theorem boostUntil_eq {closing : Ref} {cells : List Cell} (other : ∀ c ∈ cells, c.ref ≠ closing)
    (amount : Int) : boostUntil closing amount cells = cells.map (boostCell amount) := by
  induction cells with
  | nil => rfl
  | cons c cells ih =>
      rw [boostUntil, if_neg (other c (by simp)), ih fun d hd => other d (by simp [hd])]
      rfl

theorem boostUntil_inner {f : Focus} {inner rest : List Cell} {close : Cell}
    (distinct : l.refs.Nodup)
    (whole : f.cells = l.cells) (ahead : f.after = inner ++ close :: rest) (amount : Int) :
    boostUntil close.ref amount inner = inner.map (boostCell amount) := by
  refine boostUntil_eq (fun c hc same => ?_) amount
  rw [refs_eq_append whole, ahead, List.nodup_append] at distinct
  have apart := (List.nodup_cons.1 distinct.2.1).2
  rw [List.map_append, List.nodup_append] at apart
  exact apart.2.2 c.ref (List.mem_map_of_mem hc) close.ref (by simp) same

theorem mem_boostUntil {closing : Ref} {amount : Int} {cells : List Cell}
    (member : c ∈ boostUntil closing amount cells) : c ∈ cells ∨
    ∃ d ∈ cells, c = boostCell amount d := by
  induction cells with
  | nil => cases member
  | cons d cells ih =>
      by_cases met : d.ref = closing
      · rw [boostUntil, if_pos met] at member
        exact .inl member
      · rw [boostUntil, if_neg met] at member
        rcases List.mem_cons.1 member with rfl | member
        · exact .inr ⟨d, by simp, rfl⟩
        · rcases ih member with old | ⟨e, he, same⟩
          · exact .inl (List.mem_cons_of_mem _ old)
          · exact .inr ⟨e, List.mem_cons_of_mem _ he, same⟩

theorem becomes_boostInside (cells : l.cells = before ++ c :: after) (closing : Ref)
    (amount : Int) :
    Becomes (fun l => l.boostInside c.ref closing amount) l
      (l.withCells (before ++ c :: boostUntil closing amount after)) := by
  have boosted := becomes_of_focus (g := fun f => l.withCells
    ({ f with after := boostUntil closing amount f.after } : Focus).cells) cells
  simpa [Becomes, boostInside, Focus.cells] using boosted

theorem next_cases (cells : l.cells = before ++ c :: after) :
    l.next c.ref = .ok (after.head?.map Cell.ref) ∨
      ¬ l.refs.Nodup ∧ l.next c.ref = .error (.unlinked c.ref) := by
  rcases focus_cases cells with found | ⟨twice, missed⟩
  · exact .inl (by rw [next, found]; rfl)
  · exact .inr ⟨twice, by rw [next, missed]; rfl⟩

theorem dropFollowing_succ (start last : Ref) (fuel : Nat) (l : Line) :
    dropFollowing start last (fuel + 1) l = (l.next start).bind fun next? =>
      match next? with
      | none => .ok l
      | some r => (l.remove r).bind fun l =>
          if r = last then .ok l else dropFollowing start last fuel l := rfl

theorem dropFollowing_round (cells : l.cells = before ++ c :: d :: after) (last : Ref)
    (fuel : Nat) :
    (¬ l.refs.Nodup ∧ ∃ fault, dropFollowing c.ref last (fuel + 1) l = .error fault) ∨
      dropFollowing c.ref last (fuel + 1) l =
        (if d.ref = last then .ok (l.withCells (before ++ c :: after))
        else dropFollowing c.ref last fuel (l.withCells (before ++ c :: after))) ∧
      ∀ b ∈ after, b.ref ≠ d.ref := by
  rcases next_cases cells with looked | ⟨twice, missed⟩
  · have cells' : l.cells = (before ++ [c]) ++ d :: after := by simp [cells]
    rcases focus_once cells' with ⟨found, once⟩ | ⟨twice, missed⟩
    · refine .inr ⟨?_, fun b hb => once b (List.mem_append_right _ hb)⟩
      have removed : l.remove d.ref = .ok (l.withCells (before ++ c :: after)) := by
        rw [remove, found]
        simp [Except.map]
      rw [dropFollowing_succ, looked]
      simp [removed, Except.bind]
    · refine .inl ⟨twice, .unlinked d.ref, ?_⟩
      rw [dropFollowing_succ, looked]
      simp [remove, missed, Except.bind, Except.map]
  · exact .inl ⟨twice, .unlinked c.ref, by rw [dropFollowing_succ, missed]; rfl⟩

/-- The cells after one up to the named one are removed, all if it is not among them. -/
theorem becomes_dropFollowing {used rest : List Cell} {fuel : Nat}
    (cells : l.cells = before ++ c :: (used ++ rest)) (enough : used.length < fuel)
    (ends : (∃ front d, used = front ++ [d] ∧ d.ref = last) ∨
      rest = [] ∧ ∀ d ∈ used, d.ref ≠ last) :
    Becomes (dropFollowing c.ref last fuel) l (l.withCells (before ++ c :: rest)) := by
  induction used generalizing l fuel with
  | nil =>
      obtain ⟨rfl, -⟩ := ends.resolve_left (by simp)
      obtain ⟨fuel, rfl⟩ := Nat.exists_eq_add_of_lt enough
      have whole : l.withCells (before ++ [c]) = l := by
        rw [withCells, ← show l.cells = before ++ [c] from cells]
      rcases next_cases cells with looked | ⟨twice, missed⟩
      · exact .inl (by rw [dropFollowing_succ, looked, whole]; rfl)
      · exact .inr ⟨twice, .unlinked c.ref, by rw [dropFollowing_succ, missed]; rfl⟩
  | cons d used ih =>
      obtain ⟨fuel, rfl⟩ : ∃ n, fuel = n + 1 := ⟨fuel - 1, by omega⟩
      rw [List.length_cons] at enough
      rcases dropFollowing_round cells last fuel with failed | ⟨round, once⟩
      · exact .inr failed
      have fewer : (l.withCells (before ++ c :: (used ++ rest))).refs.Sublist l.refs := by
        rw [refs, refs, cells]
        exact (((List.sublist_cons_self d _).cons_cons c).append_left before).map _
      by_cases met : d.ref = last
      · -- No later cell has the reference of this one, so it is the last of those in question.
        have done : used = [] := by
          rcases ends with ⟨front, e, hused, here⟩ | ⟨-, none⟩
          · cases front with
            | nil => exact (List.cons.inj hused).2
            | cons x front =>
                obtain ⟨-, rfl⟩ := List.cons.inj hused
                exact absurd (here.trans met.symm) (once e (by simp))
          · exact absurd met (none d (by simp))
        subst done
        exact .inl (round.trans (if_pos met))
      · have ends' : (∃ front e, used = front ++ [e] ∧ e.ref = last) ∨
            rest = [] ∧ ∀ e ∈ used, e.ref ≠ last := by
          rcases ends with ⟨front, e, hused, here⟩ | ⟨nil, none⟩
          · cases front with
            | nil =>
                obtain ⟨rfl, -⟩ := List.cons.inj hused
                exact absurd here met
            | cons x front => exact .inl ⟨front, e, (List.cons.inj hused).2, here⟩
          · exact .inr ⟨nil, fun e he => none e (List.mem_cons_of_mem _ he)⟩
        have onward : Becomes (dropFollowing c.ref last fuel)
            (l.withCells (before ++ c :: (used ++ rest))) (l.withCells (before ++ c :: rest)) :=
          ih rfl (Nat.lt_of_succ_lt_succ enough) ends'
        rw [if_neg met] at round
        rcases onward with made | ⟨twice, fault, failed⟩
        · exact .inl (round.trans made)
        · exact .inr ⟨fun distinct => twice (fewer.nodup distinct), fault, round.trans failed⟩

theorem length_of_cells (cells : l.cells = before ++ c :: after) : after.length < l.length := by
  rw [length, cells, List.length_append, List.length_cons]
  omega

theorem becomes_dropAfter {used rest : List Cell}
    (cells : l.cells = before ++ c :: (used ++ d :: rest)) :
    Becomes (fun l => l.dropAfter c.ref d.ref) l (l.withCells (before ++ c :: rest)) := by
  have cells' : l.cells = before ++ c :: ((used ++ [d]) ++ rest) := by simp [cells]
  have long := length_of_cells cells'
  rw [List.length_append] at long
  exact becomes_dropFollowing cells' (Nat.lt_succ_of_lt (by omega)) (.inl ⟨used, d, rfl, rfl⟩)

theorem becomes_dropAfter_ref (cells : l.cells = before ++ c :: after) (last : Ref) :
    Becomes (fun l => l.dropAfter c.ref last) l
      (l.withCells (before ++ c :: (after.dropWhile fun d => d.ref ≠ last).drop 1)) := by
  cases ends : after.dropWhile fun d => d.ref ≠ last with
  | nil =>
      have cells' : l.cells = before ++ c :: (after ++ []) := by simp [cells]
      refine becomes_dropFollowing cells' (Nat.lt_succ_of_lt (length_of_cells cells))
        (.inr ⟨rfl, ?_⟩)
      intro d hd
      simpa using List.dropWhile_eq_nil_iff.1 ends d hd
  | cons d rest =>
      have here := List.head?_dropWhile_not (fun d : Cell => decide (d.ref ≠ last)) after
      rw [ends] at here
      obtain rfl : d.ref = last := by simpa using here
      have passed : l.cells = before ++ c ::
        ((after.takeWhile fun e => e.ref ≠ d.ref) ++ d :: rest) := by
        rw [cells, ← ends, List.takeWhile_append_dropWhile]
      rw [List.drop_one, List.tail_cons]
      exact becomes_dropAfter passed

end Line

/-!
## References of a line
-/

namespace Line

variable {l : Line} {c : Cell} {before after : List Cell}

/-- References name at most one cell, and new ones none. -/
structure Sound (l : Line) : Prop where
  distinct : l.refs.Nodup
  below : ∀ r ∈ l.refs, r < l.nextRef

theorem Sound.append (sound : l.Sound) (t : Token) : (l.append t).Sound where
  distinct := by
    rw [refs_append, List.nodup_append]
    refine ⟨sound.distinct, by simp, ?_⟩
    intro r hr r' hr'
    rw [List.mem_singleton.1 hr']
    exact Nat.ne_of_lt (sound.below r hr)
  below := by
    intro r hr
    rw [refs_append, List.mem_append, List.mem_singleton] at hr
    rcases hr with hr | rfl
    · exact Nat.lt_succ_of_lt (sound.below r hr)
    · exact Nat.lt_succ_self _

theorem Sound.withCells (sound : l.Sound) {cells : List Cell}
    (fewer : (cells.map Cell.ref).Sublist l.refs) : (l.withCells cells).Sound :=
  ⟨fewer.nodup sound.distinct, fun r hr => sound.below r (fewer.subset hr)⟩

theorem Sound.insert (sound : l.Sound) (cells : l.cells = before ++ after) (t : Token) :
    Sound { cells := before ++ { ref := l.nextRef, token := t } :: after
            nextRef := l.nextRef + 1 } := by
  have perm : (before ++ { ref := l.nextRef, token := t } :: after).Perm
      ({ ref := l.nextRef, token := t } :: l.cells) := by
    rw [cells]
    exact List.perm_middle
  have perm := perm.map Cell.ref
  rw [List.map_cons] at perm
  constructor
  · rw [refs, perm.nodup_iff, List.nodup_cons]
    exact ⟨fun old => Nat.lt_irrefl _ (sound.below _ old), sound.distinct⟩
  · intro r hr
    rcases List.mem_cons.1 (perm.mem_iff.1 hr) with rfl | old
    · exact Nat.lt_succ_self _
    · exact Nat.lt_succ_of_lt (sound.below r old)

end Line

/-!
## Brackets
-/

namespace Line

variable {b : Bracket} {depth : Nat} {opening close : Cell} {cells inner rest after : List Cell}

/-- Splits cells at the closing bracket that belongs to an opening one before them.  `depth` counts
the brackets of the same kind that were opened since. -/
def splitClose? (b : Bracket) : Nat → List Cell → Option (List Cell × Cell × List Cell)
  | _, [] => none
  | depth, c :: cs =>
      let onward (depth : Nat) :=
        (splitClose? b depth cs).map fun (inner, close, rest) => (c :: inner, close, rest)
      if c.token.kind = .bracket b .opening then onward (depth + 1)
      else if c.token.kind = .bracket b .closing then
        match depth with
        | 0 => some ([], c, cs)
        | depth + 1 => onward depth
      else onward depth

theorem splitClose?_append
    (found : splitClose? b depth cells = some (inner, close, rest)) :
    inner ++ close :: rest = cells := by
  induction cells generalizing depth inner with
  | nil => cases found
  | cons c cs ih =>
      have onward {d : Nat}
          (deeper : (splitClose? b d cs).map
            (fun (inner, close, rest) => (c :: inner, close, rest)) = some (inner, close, rest)) :
          inner ++ close :: rest = c :: cs := by
        obtain ⟨⟨inner', close', rest'⟩, split, same⟩ := Option.map_eq_some_iff.1 deeper
        simp only [Prod.mk.injEq] at same
        obtain ⟨rfl, rfl, rfl⟩ := same
        rw [List.cons_append, ih split]
      simp only [splitClose?] at found
      split at found
      · exact onward found
      · split at found
        · split at found
          · simp only [Option.some.injEq, Prod.mk.injEq] at found
            obtain ⟨rfl, rfl, rfl⟩ := found
            rfl
          · exact onward found
        · exact onward found

theorem scanClose_succ (b : Bracket) (depth : Nat) (cells : List Cell) :
    scanClose b (depth + 1) cells = .ok (splitClose? b depth cells) := by
  induction cells generalizing depth with
  | nil => rfl
  | cons c cells ih =>
      simp only [scanClose, splitClose?]
      split
      · rw [ih]
        rfl
      · split
        · cases depth with
          | zero => rfl
          | succ depth =>
              simp only [ih]
              rfl
        · rw [ih]
          rfl

theorem enclosed_eq (kind : opening.token.kind = .bracket b .opening) (after : List Cell) :
    enclosed b opening after = .ok (splitClose? b 0 after) := by
  simp only [enclosed, scanClose, kind, if_true, scanClose_succ]
  cases splitClose? b 0 after <;> rfl

end Line

end LineScript

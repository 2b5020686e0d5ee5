import Mathlib.Data.List.Forall2
import LineScript.Proofs.Nesting.Rewriting

/-!
# Twin lines

Two lines are twins if they hold the same tokens, up to identities and source lines, under
references that are counted alike.  Where the brace of a header is missing from the second line, the
references after it are lower by one there (`renumber`).  The first line of two may have the brace
at its end, so all statements about twins leave room for a tail of the first one.
-/

namespace LineScript

/-- A reference where the one of a brace has not been given out. -/
def renumber : Option Nat → Nat → Nat
  | none, r => r
  | some n, r => if n < r then r - 1 else r

@[simp] theorem renumber_none (r : Nat) : renumber none r = r := rfl

theorem renumber_low {gap : Option Nat} {r : Nat} (low : ∀ n, gap = some n → r ≤ n) :
    renumber gap r = r := by
  cases gap with
  | none => rfl
  | some n =>
      have := low n rfl
      rw [renumber, if_neg (by omega)]

theorem renumber_add {gap : Option Nat} {r : Nat} (above : ∀ n, gap = some n → n < r) (k : Nat) :
    renumber gap (r + k) = renumber gap r + k := by
  cases gap with
  | none => rfl
  | some n =>
      have := above n rfl
      rw [renumber, renumber, if_pos (by omega), if_pos (by omega)]
      omega

theorem renumber_inj {gap : Option Nat} {r s : Nat} (hr : gap ≠ some r) (hs : gap ≠ some s) :
    renumber gap r = renumber gap s ↔ r = s := by
  refine ⟨?_, fun same => by rw [same]⟩
  cases gap with
  | none => exact id
  | some n =>
      have r_ne : n ≠ r := fun same => hr (by rw [same])
      have s_ne : n ≠ s := fun same => hs (by rw [same])
      intro same
      simp only [renumber] at same
      split at same <;> split at same <;> omega

structure Token.Twin (t t' : Token) : Prop where
  kind : t'.kind = t.kind
  priority : t'.priority = t.priority
  expanded : t'.expanded = t.expanded

theorem Cell.Fresh.twin {c c' : Cell} (fresh : c.Fresh) (fresh' : c'.Fresh)
    (kind : c'.token.kind = c.token.kind) : c.token.Twin c'.token where
  kind := kind
  priority := by rw [fresh.1, fresh'.1, kind]
  expanded := by rw [fresh.2, fresh'.2]

structure Cell.Twin (gap : Option Ref) (c c' : Cell) : Prop where
  token : c.token.Twin c'.token
  ref : c'.ref = renumber gap c.ref
  other : gap ≠ some c.ref

theorem Cell.Twin.kind {gap : Option Ref} {c c' : Cell} (twin : c.Twin gap c') :
    c'.token.kind = c.token.kind :=
  twin.token.kind

theorem Cell.Twin.ref_low {gap : Option Ref} {c c' : Cell} (twin : c.Twin gap c')
    (low : ∀ n, gap = some n → c.ref < n) : c'.ref = c.ref := by
  rw [twin.ref, renumber_low]
  exact fun n same => Nat.le_of_lt (low n same)

abbrev Twins (gap : Option Ref) (cells cells' : List Cell) : Prop :=
  List.Forall₂ (Cell.Twin gap) cells cells'

namespace Twins

variable {gap : Option Ref} {cells cells' : List Cell} {c c' : Cell}

theorem append {a a' b b' : List Cell} (first : Twins gap a a') (second : Twins gap b b') :
    Twins gap (a ++ b) (a' ++ b') :=
  List.rel_append first second

theorem reverse (twins : Twins gap cells cells') : Twins gap cells.reverse cells'.reverse :=
  List.rel_reverse twins

theorem append_left {a b : List Cell} (twins : Twins gap (a ++ b) cells') :
    ∃ a' b', cells' = a' ++ b' ∧ Twins gap a a' ∧ Twins gap b b' := by
  induction a generalizing cells' with
  | nil => exact ⟨[], cells', rfl, .nil, twins⟩
  | cons c a ih =>
      cases twins with
      | cons twin rest =>
          obtain ⟨a', b', rfl, first, second⟩ := ih rest
          exact ⟨_ :: a', b', rfl, .cons twin first, second⟩

theorem split {before after : List Cell} (twins : Twins gap (before ++ c :: after) cells') :
    ∃ before' c' after', cells' = before' ++ c' :: after' ∧ Twins gap before before' ∧
      c.Twin gap c' ∧ Twins gap after after' := by
  obtain ⟨before', rest, rfl, first, second⟩ := append_left twins
  cases second with
  | cons twin second => exact ⟨before', _, _, rfl, first, twin, second⟩

theorem tail (twins : Twins gap cells cells') : Twins gap cells.tail cells'.tail := by
  cases twins with
  | nil => exact .nil
  | cons _ rest => exact rest

theorem mem_left (twins : Twins gap cells cells') (member : c' ∈ cells') :
    ∃ c ∈ cells, c.Twin gap c' := by
  induction twins with
  | nil => cases member
  | @cons a b as bs twin _ ih =>
      rcases List.mem_cons.1 member with rfl | member
      · exact ⟨a, by simp, twin⟩
      · obtain ⟨c, hc, twin⟩ := ih member
        exact ⟨c, by simp [hc], twin⟩

theorem find? (twins : Twins gap cells cells') {q : Cell → Bool}
    (same : ∀ c c', c.Twin gap c' → q c' = q c) :
    cells.find? q = none ∧ cells'.find? q = none ∨
      ∃ c ∈ cells, ∃ c', cells.find? q = some c ∧ cells'.find? q = some c' ∧ c.Twin gap c' := by
  induction twins with
  | nil => exact .inl ⟨rfl, rfl⟩
  | @cons a a' as as' twin _ ih =>
      simp only [List.find?_cons, same a a' twin]
      cases q a with
      | true => exact .inr ⟨a, by simp, a', rfl, rfl, twin⟩
      | false =>
          rcases ih with none | ⟨c, hc, c', found, found', twin⟩
          · exact .inl none
          · exact .inr ⟨c, by simp [hc], c', found, found', twin⟩

theorem of_fresh (fresh : ∀ c ∈ cells, c.Fresh) (fresh' : ∀ c ∈ cells', c.Fresh)
    (kinds : cells'.map (fun c => c.token.kind) = cells.map fun c => c.token.kind)
    (refs : cells'.map Cell.ref = cells.map Cell.ref)
    (low : ∀ c ∈ cells, ∀ n, gap = some n → c.ref < n) :
    Twins gap cells cells' := by
  induction cells generalizing cells' with
  | nil =>
      obtain rfl := List.map_eq_nil_iff.1 kinds
      exact .nil
  | cons c cells ih =>
      cases cells' with
      | nil => cases kinds
      | cons c' cells' =>
          simp only [List.map_cons, List.cons.injEq] at kinds refs
          have here := low c (by simp)
          refine .cons ⟨(fresh c (by simp)).twin (fresh' c' (by simp)) kinds.1, ?_, ?_⟩
            (ih (fun d hd => fresh d (by simp [hd])) (fun d hd => fresh' d (by simp [hd])) kinds.2
              refs.2 fun d hd => low d (by simp [hd]))
          · rw [refs.1, renumber_low fun n same => Nat.le_of_lt (here n same)]
          · intro same
            exact Nat.lt_irrefl _ (here _ same)

end Twins

/-!
## Lookups
-/

structure Focus.Twin (gap : Option Ref) (tail : List Cell) (f f' : Focus) : Prop where
  before : Twins gap f.before f'.before
  cell : f.cell.Twin gap f'.cell
  after : ∃ front, f.after = front ++ tail ∧ Twins gap front f'.after

/-- What a tail may be: nothing, or one brace, which no expression uses. -/
structure Tail (tail : List Cell) : Prop where
  braces : ∀ c ∈ tail, c.token.kind = .openBrace

namespace Focus.Twin

variable {gap : Option Ref} {tail : List Cell} {f f' : Focus}

theorem kind (twin : f.Twin gap tail f') : f'.cell.token.kind = f.cell.token.kind :=
  twin.cell.token.kind

end Focus.Twin

theorem Focus.find?_twins {gap : Option Ref} {r : Ref}
    {tail passed passed' front front' : List Cell}
    (other : gap ≠ some r) (ends : ∀ c ∈ tail, gap = some c.ref) (onLeft : Twins gap passed passed')
    (twins : Twins gap front front') {f : Focus} (found : find? r passed (front ++ tail) = some f) :
    ∃ f', find? (renumber gap r) passed' front' = some f' ∧ f.Twin gap tail f' := by
  induction twins generalizing passed passed' with
  | nil =>
      have missing : find? r passed ([] ++ tail) = none := by
        rw [List.nil_append, find?_eq_none_iff]
        intro c hc same
        exact other (by rw [ends c hc, same])
      rw [missing] at found
      cases found
  | cons twin twins ih =>
      rw [List.cons_append, find?] at found
      have same := renumber_inj twin.other other
      rw [find?, twin.ref]
      split at found
      · rename_i here
        cases found
        exact ⟨_, if_pos (same.2 here), onLeft, twin, _, rfl, twins⟩
      · rename_i there
        rw [if_neg fun here => there (same.1 here)]
        exact ih (.cons twin onLeft) found

theorem Line.focus_twins {gap : Option Ref} {r : Ref} {tail front : List Cell} {l l' : Line}
    {f : Focus}
    (other : gap ≠ some r) (ends : ∀ c ∈ tail, gap = some c.ref) (cells : l.cells = front ++ tail)
    (twins : Twins gap front l'.cells) (focus : l.focus r = .ok f) :
    ∃ f', l'.focus (renumber gap r) = .ok f' ∧ f.Twin gap tail f' := by
  obtain ⟨found, once⟩ := focus_ok_iff.1 focus
  rw [focus?, cells] at found
  obtain ⟨f', found', twin⟩ := Focus.find?_twins other ends .nil twins found
  refine ⟨f', focus_ok_iff.2 ⟨found', fun d' hd' same => ?_⟩, twin⟩
  obtain ⟨after, split, twins⟩ := twin.after
  obtain ⟨d, hd, twin⟩ := twins.mem_left hd'
  exact once d (by simp [split, hd]) ((renumber_inj twin.other other).1 (twin.ref.symm.trans same))

theorem Focus.Twin.front {gap : Option Ref} {front tail : List Cell} {f f' : Focus}
    (twin : f.Twin gap tail f') (cells : f.cells = front ++ tail) :
    ∃ after, f.after = after ++ tail ∧ Twins gap after f'.after ∧
      front = f.before.reverse ++ f.cell :: after := by
  obtain ⟨after, split, twins⟩ := twin.after
  refine ⟨after, split, twins, ?_⟩
  rw [Focus.cells, split, ← List.cons_append, ← List.append_assoc] at cells
  exact (List.append_cancel_right cells).symm

theorem Line.focus_low {gap : Option Ref} {r : Ref} {tail front : List Cell} {l l' : Line}
    {f : Focus}
    (other : gap ≠ some r) (ends : ∀ c ∈ tail, gap = some c.ref) (cells : l.cells = front ++ tail)
    (twins : Twins gap front l'.cells) (low : ∀ c ∈ front, ∀ n, gap = some n → c.ref < n)
    (focus : l.focus r = .ok f) : ∃ f', l'.focus r = .ok f' ∧ f.Twin gap tail f' := by
  obtain ⟨f', focus', twin⟩ := focus_twins other ends cells twins focus
  obtain ⟨whole, ref⟩ := Line.focus_ok focus
  obtain ⟨after, -, -, front⟩ := twin.front (whole.trans cells)
  have before := low f.cell (by simp [front])
  rw [ref] at before
  rw [renumber_low fun n same => Nat.le_of_lt (before n same)] at focus'
  exact ⟨f', focus', twin⟩

theorem Line.keepRange_twins {gap : Option Ref} {first last : Ref} {tail front : List Cell}
    {l l' part : Line} (otherFirst : gap ≠ some first) (otherLast : gap ≠ some last)
    (ends : ∀ c ∈ tail, gap = some c.ref) (cells : l.cells = front ++ tail)
    (twins : Twins gap front l'.cells) (low : ∀ c ∈ front, ∀ n, gap = some n → c.ref < n)
    (kept : l.keepRange first last = .ok part) :
    ∃ part', l'.keepRange first last = .ok part' ∧ Twins gap part.cells part'.cells ∧
      part.nextRef = l.nextRef ∧ part'.nextRef = l'.nextRef := by
  simp only [keepRange, dropBefore, cellsFrom, Except.bind_eq_bind] at kept ⊢
  cases focus : l.focus first with
  | error fault =>
      rw [focus] at kept
      cases kept
  | ok f =>
      obtain ⟨f', focus', twin⟩ := focus_low otherFirst ends cells twins low focus
      obtain ⟨after, split, onRight, rfl⟩ := twin.front ((Line.focus_ok focus).1.trans cells)
      simp only [focus, focus', Except.map_ok_eq, Except.bind_ok] at kept ⊢
      cases focus₂ : (l.withCells (f.cell :: f.after)).focus last with
      | error fault =>
          rw [focus₂] at kept
          cases kept
      | ok g =>
          have cells₂ : (l.withCells (f.cell :: f.after)).cells = (f.cell :: after) ++ tail := by
            rw [List.cons_append, ← split]
            rfl
          have twins₂ : Twins gap (f.cell :: after) (l'.withCells (f'.cell :: f'.after)).cells :=
            .cons twin.cell onRight
          obtain ⟨g', focus₂', twin₂⟩ := focus_low otherLast ends cells₂ twins₂
            (fun c hc => low c (List.mem_append_right _ hc)) focus₂
          rw [focus₂] at kept
          cases kept
          refine ⟨l'.withCells (g'.before.reverse ++ [g'.cell]), by rw [focus₂']; rfl, ?_, rfl, rfl⟩
          exact twin₂.before.reverse.append (.cons twin₂.cell .nil)

/-- The closing bracket is found at the same place; a brace behind it is passed over. -/
theorem Line.splitClose?_twins {b : Bracket} (round : b ≠ .scope) {gap : Option Ref}
    {tail : List Cell} (braces : Tail tail) (depth : Nat) {front front' : List Cell}
    (twins : Twins gap front front') :
    (splitClose? b depth (front ++ tail) = none ∧ splitClose? b depth front' = none) ∨
      ∃ inner close rest inner' close' rest',
        splitClose? b depth (front ++ tail) = some (inner, close, rest ++ tail) ∧
        splitClose? b depth front' = some (inner', close', rest') ∧
        front = inner ++ close :: rest ∧ Twins gap inner inner' ∧ close.Twin gap close' ∧
        Twins gap rest rest' := by
  induction twins generalizing depth with
  | nil =>
      left
      refine ⟨?_, rfl⟩
      obtain ⟨braces⟩ := braces
      rw [List.nil_append]
      induction tail generalizing depth with
      | nil => rfl
      | cons c tail ih =>
          have kind := braces c (by simp)
          have opening : c.token.kind ≠ .bracket b .opening := by
            rw [kind]
            rintro ⟨⟩
            exact round rfl
          have closing : c.token.kind ≠ .bracket b .closing := by
            rw [kind]
            nofun
          simp only [splitClose?, if_neg opening, if_neg closing,
            ih _ fun d hd => braces d (by simp [hd]), Option.map_none]
  | @cons c c' front front' twin twins ih =>
      -- Any token but the closing bracket that is looked for is passed over on both lines.
      have onward (d : Nat) :
          ((splitClose? b d (front ++ tail)).map (Prod.map (c :: ·) id) = none ∧
            (splitClose? b d front').map (Prod.map (c' :: ·) id) = none) ∨
            ∃ inner close rest inner' close' rest',
              (splitClose? b d (front ++ tail)).map (Prod.map (c :: ·) id) =
                some (inner, close, rest ++ tail) ∧
              (splitClose? b d front').map (Prod.map (c' :: ·) id) = some (inner', close', rest') ∧
              c :: front = inner ++ close :: rest ∧ Twins gap inner inner' ∧ close.Twin gap close' ∧
              Twins gap rest rest' := by
        rcases ih d with ⟨none, none'⟩ |
          ⟨inner, close, rest, inner', close', rest', found, found', cells, hinner, hclose, hrest⟩
        · exact .inl ⟨by rw [none]; rfl, by rw [none']; rfl⟩
        · exact .inr ⟨c :: inner, close, rest, c' :: inner', close', rest', by rw [found]; rfl,
            by rw [found']; rfl, by rw [cells]; rfl, .cons twin hinner, hclose, hrest⟩
      simp only [List.cons_append, splitClose?, twin.token.kind]
      by_cases opening : c.token.kind = .bracket b .opening
      · rw [if_pos opening, if_pos opening]
        exact onward (depth + 1)
      · rw [if_neg opening, if_neg opening]
        by_cases closing : c.token.kind = .bracket b .closing
        · rw [if_pos closing, if_pos closing]
          cases depth with
          | zero => exact .inr ⟨[], c, front, [], c', front', rfl, rfl, rfl, .nil, twin, twins⟩
          | succ depth => exact onward depth
        · rw [if_neg closing, if_neg closing]
          exact onward depth

end LineScript

import LineScript.Proofs.Loading.Structure
import LineScript.Proofs.Placement.Agreement
import LineScript.Proofs.Placement.Lines
import LineScript.Proofs.Safety.Invariant

/-!
# Where braces are placed

The `{` of a block may end the line of its header or stand on the next line alone.  `MovesBraces`
says that a program comes from another by moving some of its braces to lines of their own.  A
`Placement` tells where the lines of the one are in the other, and its function on positions
commutes with all looks into a program: with the token that follows another, with the block that
belongs to a header, and with the end of a block.
-/

namespace LineScript

/-- Some of the braces at the ends of headers are put on lines of their own. -/
inductive MovesBraces : List (List TokenKind) → List (List TokenKind) → Prop where
  | nil : MovesBraces [] []
  | keep (line : List TokenKind) {code code' : List (List TokenKind)}
      (rest : MovesBraces code code') :
      MovesBraces (line :: code) (line :: code')
  | move {header : List TokenKind} (filled : header ≠ []) {code code' : List (List TokenKind)}
      (rest : MovesBraces code code') :
      MovesBraces ((header ++ [.openBrace]) :: code) (header :: [.openBrace] :: code')

def movesBraces : List (List TokenKind) → List (List TokenKind) → Bool
  | [], [] => true
  | line :: code, line' :: code' =>
      if line = line' then movesBraces code code'
      else
        match code' with
        | [.bracket .scope .opening] :: code' =>
            line = line' ++ [.openBrace] && !line'.isEmpty && movesBraces code code'
        | _ => false
  | _, _ => false

theorem movesBraces_iff {code code' : List (List TokenKind)} :
    movesBraces code code' = true ↔ MovesBraces code code' := by
  constructor
  · intro checked
    fun_induction movesBraces code code' with
    | case1 => exact .nil
    | case2 code line code' ih => exact .keep line (ih checked)
    | case3 line code line' other code' ih =>
        simp only [Bool.and_eq_true, decide_eq_true_eq, Bool.not_eq_true',
          List.isEmpty_eq_false_iff] at checked
        obtain ⟨⟨rfl, filled⟩, rest⟩ := checked
        exact .move filled (ih rest)
    | case4 => cases checked
    | case5 => cases checked
  · intro moves
    induction moves with
    | nil => rfl
    | keep line _ ih =>
        unfold movesBraces
        rw [if_pos rfl, ih]
    | @move header filled _ _ _ ih =>
        unfold movesBraces
        rw [if_neg (by simp)]
        simp only [TokenKind.openBrace, ih, decide_true, Bool.and_true, Bool.true_and,
          Bool.not_eq_true',
          List.isEmpty_eq_false_iff]
        exact filled

instance (code code' : List (List TokenKind)) : Decidable (MovesBraces code code') :=
  decidable_of_iff _ movesBraces_iff

/-- What is left of a line at its end: nothing, or a brace that is on the next line alone. -/
inductive Rest (lines' : List Line) (i : Nat) : Option Ref → List Cell → Prop where
  | none : Rest lines' i none []
  | brace {c c' : Cell} {own : Line} (kind : c.token.kind = .openBrace)
      (next : lines'[i + 1]? = some own) (alone : own.cells = [c']) (ref : c'.ref = 0)
      (twin : c.token.Twin c'.token) : Rest lines' i (some c.ref) [c]

theorem Rest.ends {lines' : List Line} {i : Nat} {gap : Option Ref} {tail : List Cell}
    (rest : Rest lines' i gap tail) : ∀ c ∈ tail, gap = some c.ref := by
  cases rest with
  | none => nofun
  | brace => exact fun d hd => by rw [List.mem_singleton.1 hd]

structure Laid (lines' : List Line) (i : Nat) (line : Line) (gap : Option Ref) (line' : Line)
    (front tail : List Cell) : Prop where
  found : lines'[i]? = some line'
  cells : line.cells = front ++ tail
  filled : front ≠ []
  twins : Twins gap front line'.cells
  low : ∀ c ∈ front, ∀ n, gap = some n → c.ref < n
  above : ∀ n, gap = some n → n < line.nextRef
  nextRef : line'.nextRef = renumber gap line.nextRef
  rest : Rest lines' i gap tail

structure Placement (lines lines' : List Line) where
  index : Nat → Nat
  /-- The brace that is not on its line there. -/
  gap : Nat → Option Ref
  index_zero : index 0 = 0
  index_succ : ∀ t, index (t + 1) = index t + if (gap t).isSome then 2 else 1
  laid : ∀ {t line}, lines[t]? = some line →
    ∃ line' front tail, Laid lines' (index t) line (gap t) line' front tail
  past : ∀ {t}, lines[t]? = none → lines'[index t]? = none

theorem Line.Numbered.refs_eq {l : Line} (numbered : l.Numbered) :
    l.cells.map Cell.ref = List.range l.cells.length ∧ l.nextRef = l.cells.length := by
  have refs := numbered.refs
  have size := congrArg List.length refs
  rw [List.length_range, Line.refs, List.length_map] at size
  rw [Line.refs, ← size] at refs
  exact ⟨refs, size.symm⟩

theorem laid_kept {line line' : Line} {lines' : List Line} {i : Nat} (loaded : line.Loaded)
    (loaded' : line'.Loaded) (numbered : line.Numbered) (numbered' : line'.Numbered)
    (found : lines'[i]? = some line') (kinds : line'.kinds = line.kinds) :
    Laid lines' i line none line' line.cells [] := by
  have size : line'.cells.length = line.cells.length := by
    simpa [Line.kinds] using congrArg List.length kinds
  obtain ⟨refs, next⟩ := numbered.refs_eq
  obtain ⟨refs', next'⟩ := numbered'.refs_eq
  refine ⟨found, by simp, loaded.filled, ?_, by simp, by simp, ?_, .none⟩
  · exact .of_fresh loaded.fresh loaded'.fresh kinds (by rw [refs, refs', size]) (by simp)
  · rw [next, next', size]
    rfl

/-- A line that ends with a brace, one without it and one with nothing else. -/
theorem laid_moved {line line' own : Line} {lines' : List Line} {i : Nat} {header : List TokenKind}
    (loaded : line.Loaded) (loaded' : line'.Loaded) (loadedOwn : own.Loaded)
    (numbered : line.Numbered)
    (numbered' : line'.Numbered) (numberedOwn : own.Numbered) (found : lines'[i]? = some line')
    (next : lines'[i + 1]? = some own) (kinds : line.kinds = header ++ [.openBrace])
    (kinds' : line'.kinds = header) (kindsOwn : own.kinds = [.openBrace]) (filled : header ≠ []) :
    ∃ r front tail, Laid lines' i line (some r) line' front tail := by
  obtain ⟨front, last, cells, hfront, hlast⟩ := List.map_eq_append_iff.1 kinds
  obtain ⟨brace, rfl, kind⟩ := List.map_eq_singleton_iff.1 hlast
  obtain ⟨brace', alone, kind'⟩ := List.map_eq_singleton_iff.1 kindsOwn
  have size : line'.cells.length = front.length := by
    simpa [Line.kinds] using congrArg List.length (kinds'.trans hfront.symm)
  obtain ⟨refs, nextRef⟩ := numbered.refs_eq
  obtain ⟨refs', nextRef'⟩ := numbered'.refs_eq
  obtain ⟨refsOwn, -⟩ := numberedOwn.refs_eq
  rw [cells, List.length_append, List.length_singleton] at nextRef
  rw [cells, List.map_append, List.length_append, List.length_singleton, List.range_succ,
    List.map_singleton] at refs
  obtain ⟨refsFront, refBrace⟩ := List.append_singleton_inj.1 refs
  have low : ∀ c ∈ front, c.ref < brace.ref := by
    intro c hc
    rw [refBrace, ← List.mem_range, ← refsFront]
    exact List.mem_map_of_mem hc
  have here : brace ∈ line.cells := by simp [cells]
  refine ⟨brace.ref, front, [brace], found, cells, ?_, ?_, ?_, ?_, ?_,
    .brace kind next alone ?_ ?_⟩
  · rintro rfl
    exact filled hfront.symm
  · refine .of_fresh (fun c hc => loaded.fresh c (by simp [cells, hc])) loaded'.fresh
      (kinds'.trans hfront.symm) ?_ ?_
    · rw [refs', refsFront, size]
    · rintro c hc n ⟨⟩
      exact low c hc
  · rintro c hc n ⟨⟩
    exact low c hc
  · rintro n ⟨⟩
    rw [nextRef, refBrace]
    exact Nat.lt_succ_self _
  · rw [nextRef', size, nextRef, refBrace, renumber, if_pos (Nat.lt_succ_self _),
      Nat.add_sub_cancel]
  · simpa [alone] using refsOwn
  · exact (loaded.fresh brace here).twin (loadedOwn.fresh brace' (by simp [alone]))
      (kind'.trans kind.symm)

theorem Laid.shift {lines' : List Line} {i : Nat} {line line' : Line} {gap : Option Ref}
    {front tail : List Cell} (before : List Line) (laid : Laid lines' i line gap line' front tail) :
    Laid (before ++ lines') (before.length + i) line gap line' front tail := by
  have later (j : Nat) : (before ++ lines')[before.length + j]? = lines'[j]? := by
    rw [List.getElem?_append_right (Nat.le_add_right _ _), Nat.add_sub_cancel_left]
  refine { laid with found := ?_, rest := ?_ }
  · rw [later]
    exact laid.found
  · cases laid.rest with
    | none => exact .none
    | brace kind next alone ref twin =>
        refine .brace kind ?_ alone ref twin
        rw [Nat.add_assoc, later]
        exact next

namespace Placement

def nil : Placement [] [] where
  index := id
  gap _ := none
  index_zero := rfl
  index_succ _ := rfl
  laid := nofun
  past := by simp

def cons {lines lines' : List Line} {line line' : Line} {front tail : List Cell} (gap : Option Ref)
    (before : List Line) (first : Laid (before ++ lines') 0 line gap line' front tail)
    (length : before.length = if gap.isSome then 2 else 1) (rest : Placement lines lines') :
    Placement (line :: lines) (before ++ lines') where
  index
    | 0 => 0
    | t + 1 => before.length + rest.index t
  gap
    | 0 => gap
    | t + 1 => rest.gap t
  index_zero := rfl
  index_succ
    | 0 => by simp only [rest.index_zero, length, Nat.add_zero, Nat.zero_add]
    | t + 1 => by simp only [rest.index_succ t, Nat.add_assoc]
  laid := by
    rintro (_ | t) l found
    · cases found
      exact ⟨line', front, tail, first⟩
    · obtain ⟨line', front, tail, laid⟩ := rest.laid found
      exact ⟨line', front, tail, laid.shift before⟩
  past := by
    rintro (_ | t) found
    · cases found
    · rw [List.getElem?_append_right (Nat.le_add_right _ _), Nat.add_sub_cancel_left]
      exact rest.past found

end Placement

theorem MovesBraces.exists_placement {code code' : List (List TokenKind)}
    (moves : MovesBraces code code') {lines lines' : List Line}
    (kinds : lines.map Line.kinds = code)
    (kinds' : lines'.map Line.kinds = code') (good : ∀ l ∈ lines, l.Loaded ∧ l.Numbered)
    (good' : ∀ l ∈ lines', l.Loaded ∧ l.Numbered) : Nonempty (Placement lines lines') := by
  induction moves generalizing lines lines' with
  | nil =>
      obtain rfl := List.map_eq_nil_iff.1 kinds
      obtain rfl := List.map_eq_nil_iff.1 kinds'
      exact ⟨.nil⟩
  | keep ks rest ih =>
      obtain ⟨line, lines, rfl, hline, kinds⟩ := List.map_eq_cons_iff.1 kinds
      obtain ⟨line', lines', rfl, hline', kinds'⟩ := List.map_eq_cons_iff.1 kinds'
      obtain ⟨placement⟩ := ih kinds kinds' (fun l hl => good l (by simp [hl]))
        (fun l hl => good' l (by simp [hl]))
      obtain ⟨loaded, numbered⟩ := good line (by simp)
      obtain ⟨loaded', numbered'⟩ := good' line' (by simp)
      have laid := laid_kept (i := 0) loaded loaded' numbered numbered'
        (List.getElem?_cons_zero (l := lines')) (hline'.trans hline.symm)
      exact ⟨.cons none [line'] laid rfl placement⟩
  | move filled rest ih =>
      obtain ⟨line, lines, rfl, hline, kinds⟩ := List.map_eq_cons_iff.1 kinds
      obtain ⟨line', more, rfl, hline', kinds'⟩ := List.map_eq_cons_iff.1 kinds'
      obtain ⟨own, lines', rfl, hown, kinds'⟩ := List.map_eq_cons_iff.1 kinds'
      obtain ⟨placement⟩ := ih kinds kinds' (fun l hl => good l (by simp [hl]))
        (fun l hl => good' l (by simp [hl]))
      obtain ⟨loaded, numbered⟩ := good line (by simp)
      obtain ⟨loaded', numbered'⟩ := good' line' (by simp)
      obtain ⟨loadedOwn, numberedOwn⟩ := good' own (by simp)
      obtain ⟨r, front, tail, laid⟩ := laid_moved
        (i := 0) loaded loaded' loadedOwn numbered numbered'
        numberedOwn (List.getElem?_cons_zero (l := own :: lines')) rfl hline hline' hown filled
      exact ⟨.cons (some r) [line', own] laid rfl placement⟩

/-!
## Positions
-/

namespace Placement

variable {p p' : Program} (place : Placement p.lines p'.lines) {t : Nat} {line : Line}
    {b : Position}

def position (b : Position) : Position :=
  if place.gap b.line = some b.token then { line := place.index b.line + 1, token := 0 }
  else { line := place.index b.line, token := b.token }

def extent (e : Extent) : Extent where
  opening := place.position e.opening
  closing := place.position e.closing

theorem index_lt {s : Nat} (lt : s < t) : place.index s < place.index t := by
  induction t with
  | zero => cases lt
  | succ t ih =>
      have step := place.index_succ t
      have more : 1 ≤ if (place.gap t).isSome then 2 else 1 := by split <;> omega
      rcases Nat.lt_succ_iff_lt_or_eq.1 lt with lt | rfl
      · have := ih lt
        omega
      · omega

theorem index_inj {s : Nat} : place.index s = place.index t ↔ s = t := by
  refine ⟨?_, fun same => by rw [same]⟩
  intro same
  rcases Nat.lt_trichotomy s t with lt | eq | lt
  · have := place.index_lt lt
    omega
  · exact eq
  · have := place.index_lt lt
    omega

/-- A token is the brace that is moved, or it is on the line that the rest of its own was
moved to. -/
inductive Seen (place : Placement p.lines p'.lines) (t : Nat) (line : Line) (before : List Cell)
    (c : Cell) (after : List Cell) : Prop where
  | brace {own : Line} {c' : Cell} (gap : place.gap t = some c.ref) (last : after = [])
      (next : p'.lines[place.index t + 1]? = some own) (alone : own.cells = [c']) (ref : c'.ref = 0)
      (kind : c.token.kind = .openBrace) (twin : c.token.Twin c'.token)
  | header {line' : Line} {before' front tail after' : List Cell} {c' : Cell}
      (other : place.gap t ≠ some c.ref) (found : p'.lines[place.index t]? = some line')
      (cells : line'.cells = before' ++ c' :: after') (onLeft : Twins (place.gap t) before before')
      (twin : c.Twin (place.gap t) c') (ref : c'.ref = c.ref) (split : after = front ++ tail)
      (onRight : Twins (place.gap t) front after')
      (low : ∀ d ∈ front, ∀ n, place.gap t = some n → d.ref < n)
      (above : ∀ n, place.gap t = some n → n < line.nextRef)
      (nextRef : line'.nextRef = renumber (place.gap t) line.nextRef)
      (rest : Rest p'.lines (place.index t) (place.gap t) tail)

theorem seen (found : p.lines[t]? = some line) {before after : List Cell} {c : Cell}
    (cells : line.cells = before ++ c :: after) : place.Seen t line before c after := by
  obtain ⟨line', front, tail, laid⟩ := place.laid found
  have same := laid.cells.symm.trans cells
  rcases List.append_eq_append_iff.1 same with ⟨x, hbefore, htail⟩ | ⟨x, hfront, htail⟩
  · -- The token is in the tail, so it is the brace.
    have rest := laid.rest
    generalize gap : place.gap t = g at rest
    cases rest with
    | none => simp at htail
    | brace kind next alone ref twin =>
        obtain ⟨rfl, rfl, rfl⟩ : x = [] ∧ _ = c ∧ after = [] := by
          cases x with
          | nil => simpa [eq_comm] using htail
          | cons d x => simp at htail
        exact .brace gap rfl next alone ref kind twin
  · cases x with
    | nil =>
        have rest := laid.rest
        generalize gap : place.gap t = g at rest
        cases rest with
        | none => simp at htail
        | brace kind next alone ref twin =>
            obtain ⟨rfl, rfl⟩ : _ = c ∧ after = [] := by simpa [eq_comm] using htail
            exact .brace gap rfl next alone ref kind twin
    | cons d x =>
        obtain ⟨rfl, rfl⟩ := List.cons.inj htail
        have twins := laid.twins
        rw [hfront] at twins
        obtain ⟨before', c', after', cells', onLeft, twin, onRight⟩ := twins.split
        refine .header twin.other laid.found cells' onLeft twin ?_ rfl onRight ?_ laid.above
          laid.nextRef laid.rest
        · exact twin.ref_low (laid.low c (by simp [hfront]))
        · exact fun e he => laid.low e (by simp [hfront, he])

theorem position_brace {r : Ref} (gap : place.gap t = some r) :
    place.position { line := t, token := r } = { line := place.index t + 1, token := 0 } := by
  rw [position, if_pos gap]

theorem position_header {r : Ref} (other : place.gap t ≠ some r) :
    place.position { line := t, token := r } = { line := place.index t, token := r } := by
  rw [position, if_neg other]

theorem index_succ_gap {r : Ref} (gap : place.gap t = some r) :
    place.index (t + 1) = place.index t + 2 := by
  rw [place.index_succ, gap]
  rfl

theorem index_succ_none (gap : place.gap t = none) : place.index (t + 1) = place.index t + 1 := by
  rw [place.index_succ, gap]
  rfl

theorem firstFrom? (loaded : p.Loaded) (loaded' : p'.Loaded) (t : Nat) :
    p'.firstFrom? (place.index t) = (p.firstFrom? t).map place.position := by
  rw [Program.firstFrom?_eq loaded, Program.firstFrom?_eq loaded']
  cases found : p.lines[t]? with
  | none =>
      rw [place.past found]
      rfl
  | some line =>
      obtain ⟨line', front, tail, laid⟩ := place.laid found
      obtain ⟨c, front, rfl⟩ := List.exists_cons_of_ne_nil laid.filled
      have cells : line.cells = [] ++ c :: (front ++ tail) := by rw [laid.cells]; rfl
      have low := laid.low c (by simp)
      have other : place.gap t ≠ some c.ref := fun same => Nat.lt_irrefl _ (low _ same)
      have twins := laid.twins
      generalize cells' : line'.cells = front' at twins
      cases twins with
      | cons twin twins =>
          simp only [laid.found, Option.bind_some, Program.headOf, cells, cells', List.nil_append,
            List.head?_cons, Option.map_some, Option.some.injEq]
          rw [place.position_header other, twin.ref_low low]

theorem firstFrom?_brace (loaded' : p'.Loaded) {r : Ref} (gap : place.gap t = some r) {own : Line}
    {c' : Cell} (next : p'.lines[place.index t + 1]? = some own) (alone : own.cells = [c'])
    (ref : c'.ref = 0) :
    p'.firstFrom? (place.index t + 1) = some (place.position { line := t, token := r }) := by
  rw [Program.firstFrom?_eq loaded', next, place.position_brace gap]
  simp [Program.headOf, alone, ref]

end Placement

def Program.nextAfter? (p : Program) (t : Nat) (after : List Cell) : Option Position :=
  match after with
  | [] => p.firstFrom? (t + 1)
  | d :: _ => some { line := t, token := d.ref }

theorem Program.following_eq {p : Program} {t : Nat} {line : Line} (loaded : p.Loaded)
    (found : p.lines[t]? = some line) {before after : List Cell} {c : Cell}
    (cells : line.cells = before ++ c :: after) :
    p.following { line := t, token := c.ref } = .ok (p.nextAfter? t after) := by
  cases after with
  | nil => exact following_last loaded found before cells
  | cons d after =>
      simp [following, nextAfter?, lineAt_eq found, Line.next,
        (loaded.line found).focus before cells,
        Focus.next?]

theorem Program.locatedLines_drop {lines : List Line} {i : Nat} {line : Line}
    (found : lines[i]? = some line) :
    locatedLines i (lines.drop i) =
      located i line.cells ++ locatedLines (i + 1) (lines.drop (i + 1)) := by
  obtain ⟨inside, rfl⟩ := List.getElem?_eq_some_iff.1 found
  rw [List.drop_eq_getElem_cons inside, locatedLines]

theorem Program.scanFrom_last {p : Program} {t : Nat} {line : Line} (loaded : p.Loaded)
    (found : p.lines[t]? = some line) {before : List Cell} {c : Cell}
    (cells : line.cells = before ++ [c]) :
    p.scanFrom { line := t, token := c.ref } = .ok (({ line := t, token := c.ref }, c.token) ::
      locatedLines (t + 1) (p.lines.drop (t + 1))) := by
  simp [scanFrom, lineAt_eq found, Line.cellsFrom, (loaded.line found).focus before cells, located]

namespace Placement

variable {p p' : Program} (place : Placement p.lines p'.lines) {t : Nat} {line : Line}
    {b : Position}

theorem following (loaded : p.Loaded) (loaded' : p'.Loaded) (linked : p.Linked b) :
    ∃ next, p.following b = .ok next ∧
      p'.following (place.position b) = .ok (next.map place.position) ∧
      ∀ a, next = some a → p.Linked a := by
  obtain ⟨line, before, c, after, found, cells, ref⟩ := linked.split
  obtain ⟨next, follows, there⟩ := linked.following loaded
  refine ⟨next, follows, ?_, there⟩
  obtain ⟨t, r⟩ := b
  obtain rfl : c.ref = r := ref
  rw [Program.following_eq loaded found cells] at follows
  cases follows
  cases place.seen found cells with
  | @brace own c' gap last next alone ref kind twin =>
      subst last
      have ahead := Program.following_eq loaded' next (show own.cells = [] ++ c' :: [] from alone)
      rw [ref] at ahead
      rw [place.position_brace gap, ahead, Program.nextAfter?, Program.nextAfter?,
        ← place.firstFrom? loaded loaded', place.index_succ_gap gap]
  | header other found' cells' _ _ ref split onRight low _ _ rest =>
      have ahead := Program.following_eq loaded' found' cells'
      rw [ref] at ahead
      rw [place.position_header other, ahead, split]
      cases onRight with
      | cons twin onRight =>
          simp only [Program.nextAfter?, List.cons_append, Option.map_some]
          rw [twin.ref_low (low _ (by simp)), place.position_header twin.other]
      | nil =>
          generalize gap : place.gap t = g at rest
          cases rest with
          | none =>
              simp only [Program.nextAfter?, List.nil_append]
              rw [← place.firstFrom? loaded loaded', place.index_succ_none gap]
          | brace kind next alone ref twin =>
              simp only [Program.nextAfter?, List.nil_append, Option.map_some]
              rw [place.firstFrom?_brace loaded' gap next alone ref]

theorem tokenAt (loaded : p.Loaded) (loaded' : p'.Loaded) (linked : p.Linked b) :
    ∃ token token', p.tokenAt b = .ok token ∧ p'.tokenAt (place.position b) = .ok token' ∧
      token.Twin token' := by
  obtain ⟨line, before, c, after, found, cells, ref⟩ := linked.split
  obtain ⟨t, r⟩ := b
  obtain rfl : c.ref = r := ref
  have here : p.tokenAt { line := t, token := c.ref } = .ok c.token := by
    simp [Program.tokenAt, Program.lineAt_eq found, Line.get,
      (loaded.line found).focus before cells]
  cases place.seen found cells with
  | @brace own c' gap last next alone ref kind twin =>
      refine ⟨c.token, c'.token, here, ?_, twin⟩
      have focus := (loaded'.line next).focus [] alone
      rw [ref] at focus
      simp [place.position_brace gap, Program.tokenAt, Program.lineAt_eq next, Line.get, focus]
  | @header line' before' _ _ _ c' other found' cells' _ twin ref =>
      refine ⟨c.token, c'.token, here, ?_, twin.token⟩
      have focus := (loaded'.line found').focus before' cells'
      rw [ref] at focus
      simp [place.position_header other, Program.tokenAt, Program.lineAt_eq found', Line.get, focus]

/-!
## Blocks
-/

abbrev SameTokens (place : Placement p.lines p'.lines) (tokens tokens' : List (Position × Token)) :
    Prop :=
  List.Forall₂ (fun x y => y.1 = place.position x.1 ∧ x.2.Twin y.2) tokens tokens'

theorem sameTokens_located {cells cells' : List Cell} (twins : Twins (place.gap t) cells cells')
    (low : ∀ c ∈ cells, ∀ n, place.gap t = some n → c.ref < n) :
    place.SameTokens (Program.located t cells) (Program.located (place.index t) cells') := by
  induction twins with
  | nil => exact .nil
  | cons twin twins ih =>
      refine .cons ⟨?_, twin.token⟩ (ih fun c hc => low c (by simp [hc]))
      simp only [twin.ref_low (low _ (by simp))]
      rw [place.position_header twin.other]

theorem sameTokens_from (t : Nat) :
    place.SameTokens (Program.locatedLines t (p.lines.drop t))
      (Program.locatedLines (place.index t) (p'.lines.drop (place.index t))) := by
  generalize size : p.lines.length - t = n
  induction n generalizing t with
  | zero =>
      have past : p.lines[t]? = none := List.getElem?_eq_none (by omega)
      have past' := List.getElem?_eq_none_iff.1 (place.past past)
      rw [List.drop_eq_nil_of_le (by omega), List.drop_eq_nil_of_le past']
      exact .nil
  | succ n ih =>
      have later := ih (t + 1) (by omega)
      have found : p.lines[t]? = some p.lines[t] := List.getElem?_eq_getElem (by omega)
      obtain ⟨line', front, tail, laid⟩ := place.laid found
      rw [Program.locatedLines_drop found, Program.locatedLines_drop laid.found, laid.cells]
      have first := place.sameTokens_located laid.twins laid.low
      have rest := laid.rest
      generalize gap : place.gap t = g at rest
      cases rest with
      | none =>
          rw [place.index_succ_none gap] at later
          rw [List.append_nil]
          exact List.rel_append first later
      | brace kind next alone ref twin =>
          rw [place.index_succ_gap gap] at later
          rw [Program.locatedLines_drop next, alone]
          simp only [Program.located, List.map_append, List.append_assoc] at first ⊢
          refine List.rel_append first (.cons ⟨?_, twin⟩ later)
          simp only [ref]
          rw [place.position_brace gap]

theorem closeFrom {tokens tokens' : List (Position × Token)}
    (same : place.SameTokens tokens tokens')
    (depth : Nat) :
    Program.closeFrom depth tokens' =
      (Program.closeFrom depth tokens).map fun close => close.map place.position := by
  induction same generalizing depth with
  | nil => rfl
  | @cons x y _ _ here same ih =>
      obtain ⟨b, token⟩ := x
      obtain ⟨b', token'⟩ := y
      obtain ⟨rfl, twin⟩ := here
      have kind : token'.kind = token.kind := twin.kind
      simp only [Program.closeFrom, kind]
      by_cases opening : token.kind = .openBrace
      · rw [if_pos opening, if_pos opening]
        exact ih _
      · rw [if_neg opening, if_neg opening]
        by_cases closing : token.kind = .closeBrace
        · rw [if_pos closing, if_pos closing]
          rcases depth with _ | _ | depth
          · rfl
          · rfl
          · exact ih _
        · rw [if_neg closing, if_neg closing]
          exact ih _

theorem scanFrom_brace (loaded : p.Loaded) (loaded' : p'.Loaded) (brace : p.BraceAt b) :
    ∃ tokens tokens', p.scanFrom b = .ok tokens ∧ p'.scanFrom (place.position b) = .ok tokens' ∧
      place.SameTokens tokens tokens' := by
  obtain ⟨line, header, c, found, cells, kind, ref⟩ := brace
  obtain ⟨t, r⟩ := b
  obtain rfl : c.ref = r := ref
  have later := place.sameTokens_from (t + 1)
  have scan := Program.scanFrom_last loaded found cells
  cases place.seen found cells with
  | @brace own c' gap last next alone ref kind twin =>
      have scan' := Program.scanFrom_last loaded' next (show own.cells = [] ++ [c'] from alone)
      rw [place.index_succ_gap gap] at later
      rw [ref, ← place.position_brace gap] at scan'
      exact ⟨_, _, scan, scan', .cons ⟨rfl, twin⟩ later⟩
  | @header line' before' front tail after' c' other found' cells' _ twin ref
      split onRight low _ _ rest =>
      obtain ⟨rfl, rfl⟩ := List.append_eq_nil_iff.1 split.symm
      cases onRight
      have none : place.gap t = none := by
        generalize place.gap t = g at rest
        cases rest
        rfl
      have scan' := Program.scanFrom_last loaded' found' cells'
      rw [place.index_succ_none none] at later
      rw [ref, ← place.position_header other] at scan'
      exact ⟨_, _, scan, scan', .cons ⟨rfl, twin.token⟩ later⟩

theorem blockEnd (balanced : p.Balanced) (loaded' : p'.Loaded) (brace : p.BraceAt b) :
    ∃ close, p.blockEnd b = .ok close ∧
      p'.blockEnd (place.position b) = .ok (place.position close) := by
  obtain ⟨close, last, ended, -⟩ := brace.exists_block balanced
  refine ⟨close, ended, ?_⟩
  obtain ⟨tokens, tokens', scan, scan', same⟩ := place.scanFrom_brace balanced.loaded loaded' brace
  simp only [Program.blockEnd, scan, scan', Except.bind_eq_bind, Except.bind_ok,
    place.closeFrom same] at ended ⊢
  cases found : Program.closeFrom 0 tokens with
  | error fault => simp [found, orFault] at ended
  | ok close? =>
      cases close? with
      | none =>
          cases token : p.tokenAt b <;> simp [found, orFault, token, throw, throwThe,
            MonadExceptOf.throw] at ended
      | some c =>
          rw [found] at ended
          cases ended
          rfl

/-- The brace of a block on the line after its header. -/
theorem blockStart_next (gap : place.gap t = none) :
    (((p.lines[t + 1]?).bind fun line => line.cells.head?).filter Program.isOpenBrace = none ∧
      ((p'.lines[place.index t + 1]?).bind fun line => line.cells.head?).filter
        Program.isOpenBrace =
        none) ∨
      ∃ c c', ((p.lines[t + 1]?).bind fun line => line.cells.head?).filter
        Program.isOpenBrace = some c ∧
        ((p'.lines[place.index t + 1]?).bind fun line =>
          line.cells.head?).filter Program.isOpenBrace =
          some c' ∧
        place.position { line := t + 1, token := c.ref } =
          { line := place.index t + 1, token := c'.ref } := by
  rw [← place.index_succ_none gap]
  cases found : p.lines[t + 1]? with
  | none => exact .inl ⟨rfl, by rw [place.past found]; rfl⟩
  | some line =>
      obtain ⟨line', front, tail, laid⟩ := place.laid found
      have twins := laid.twins
      obtain ⟨c, front, rfl⟩ := List.exists_cons_of_ne_nil laid.filled
      generalize cells' : line'.cells = front' at twins
      cases twins with
      | @cons _ c' _ _ twin twins =>
          have same : Program.isOpenBrace c' = Program.isOpenBrace c := by
            rw [Program.isOpenBrace, Program.isOpenBrace, twin.kind]
          simp only [laid.found, Option.bind_some, laid.cells, cells',
            List.cons_append, List.head?_cons,
            Option.filter_some, same]
          cases Program.isOpenBrace c with
          | false => exact .inl ⟨rfl, rfl⟩
          | true =>
              refine .inr ⟨c, c', rfl, rfl, ?_⟩
              rw [place.position_header twin.other, twin.ref_low (laid.low c (by simp))]

theorem blockStart (loaded : p.Loaded) (loaded' : p'.Loaded) (found : p.lines[t]? = some line)
    {before after : List Cell} {c : Cell} (cells : line.cells = before ++ c :: after)
    (bare : c.token.kind.isScopeBracket = false) :
    Concur (fun b b' => b' = place.position b) (p.blockStart { line := t, token := c.ref })
      (p'.blockStart (place.position { line := t, token := c.ref })) := by
  cases place.seen found cells with
  | brace _ _ _ _ _ kind =>
      rw [kind] at bare
      cases bare
  | header other found' cells' _ twin ref split onRight low _ _ rest =>
      have focus := (loaded.line found).focus before cells
      have focus' := (loaded'.line found').focus _ cells'
      rw [ref] at focus'
      rw [place.position_header other]
      simp only [Program.blockStart, Program.lineAt_eq found,
        Program.lineAt_eq found', focus, focus',
        orFault, Except.mapError_ok_eq, Except.bind_eq_bind, Except.bind_ok, split,
          List.find?_append]
      rcases onRight.find? (q := Program.isOpenBrace) (fun d d' twin => by
        rw [Program.isOpenBrace, Program.isOpenBrace, twin.kind]) with ⟨none, none'⟩ |
          ⟨d, hd, d', here, here', twin⟩
      · rw [none, none', Option.none_or]
        generalize gap : place.gap t = g at rest
        cases rest with
        | none =>
            rw [List.find?_nil]
            rcases place.blockStart_next gap with ⟨lacks, lacks'⟩ | ⟨d, d', has, has', same⟩
            · rw [lacks, lacks']
              exact .error rfl
            · rw [has, has']
              exact .ok same.symm
        | @brace d d' own kind next alone ref twin =>
            have opening : Program.isOpenBrace d = true := Program.isOpenBrace_iff.2 kind
            have opening' : Program.isOpenBrace d' = true :=
              Program.isOpenBrace_iff.2 (twin.kind.trans kind)
            simp only [List.find?_cons, opening, next, Option.bind_some, alone, List.head?_cons,
              Option.filter_some, opening', if_true]
            refine .ok ?_
            rw [place.position_brace gap, ref]
      · rw [here, here', Option.some_or]
        refine .ok ?_
        rw [place.position_header twin.other, twin.ref_low (low d hd)]

theorem blockAfter (balanced : p.Balanced) (loaded' : p'.Loaded) (found : p.lines[t]? = some line)
    {before after : List Cell} {c : Cell} (cells : line.cells = before ++ c :: after)
    (bare : c.token.kind.isScopeBracket = false) :
    Concur (fun e e' => e' = place.extent e ∧ p.IsBlock e)
      (p.blockAfter { line := t, token := c.ref })
      (p'.blockAfter (place.position { line := t, token := c.ref })) := by
  refine (place.blockStart balanced.loaded loaded' found cells bare).known.bind ?_
  rintro b _ ⟨started, -, rfl⟩
  have brace := (Program.headedBy_of_blockStart balanced found cells bare started).brace
  obtain ⟨close, ended, ended'⟩ := place.blockEnd balanced loaded' brace
  rw [ended, ended']
  exact .ok ⟨rfl, brace, ended⟩

theorem elseBranch (loaded : p.Loaded) (loaded' : p'.Loaded) (linked : p.Linked b) :
    ∃ next, Action.elseBranch p b = .ok next ∧
      Action.elseBranch p' (place.position b) = .ok (next.map place.position) ∧
      ∀ a, next = some a → p.Linked a := by
  obtain ⟨after, follows, follows', there⟩ := place.following loaded loaded' linked
  simp only [Action.elseBranch, follows, follows', Except.bind_eq_bind, Except.bind_ok]
  cases after with
  | none => exact ⟨none, rfl, rfl, by simp⟩
  | some a =>
      have linkedA := there a rfl
      obtain ⟨token, token', found, found', twin⟩ := place.tokenAt loaded loaded' linkedA
      simp only [Option.map_some, found, found', Except.bind_ok, twin.kind]
      by_cases other : token.kind = .keyword .else
      · rw [if_pos other, if_pos other]
        exact place.following loaded loaded' linkedA
      · rw [if_neg other, if_neg other]
        exact ⟨some a, rfl, rfl, fun c same => by cases same; exact linkedA⟩

theorem position_close {e : Extent} (block : p.IsBlock e) (balanced : p.Balanced) :
    (place.position e.closing).line = place.index e.closing.line := by
  obtain ⟨close, ends⟩ := block.ends balanced
  obtain ⟨line, found, cells⟩ := ends.found
  obtain ⟨opening, ⟨t, r⟩⟩ := e
  obtain rfl : close.ref = r := ends.ref
  cases place.seen found (show line.cells = [] ++ close :: [] from cells) with
  | brace _ _ _ _ _ kind =>
      rw [ends.kind] at kind
      cases kind
  | header other => rw [place.position_header other]

end Placement

end LineScript

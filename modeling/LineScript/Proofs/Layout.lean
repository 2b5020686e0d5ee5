import LineScript.Proofs.Choice

/-!
# The layout of a program

The lines of a program are nested by its braces: a `{` ends its line and a `}` is a line of its own.
A layout is a sequence of lines in which every block is a part of its own, and `Layout.code` writes
it out.  A scan for the end of a block passes over every layout (`Layout.closeFrom_code`), so it
ends at the brace that the layout says.
-/

namespace LineScript

def Line.kinds (l : Line) : List TokenKind :=
  l.cells.map fun c => c.token.kind

namespace Line

structure Growing (l : Line) : Prop where
  sound : l.Sound
  fresh : ∀ c ∈ l.cells, c.Fresh

structure Loaded (l : Line) : Prop where
  filled : l.cells ≠ []
  sound : l.Sound
  fresh : ∀ c ∈ l.cells, c.Fresh

theorem Loaded.distinct {l : Line} (loaded : l.Loaded) : l.refs.Nodup :=
  loaded.sound.distinct

theorem growing_empty : ({} : Line).Growing :=
  ⟨⟨.nil, by simp [refs]⟩, by simp⟩

theorem Growing.append {l : Line} (growing : l.Growing) (k : TokenKind) (id n : Nat) :
    (l.append (.new k id n)).Growing where
  sound := growing.sound.append _
  fresh := by
    intro c hc
    rcases List.mem_append.1 hc with hc | hc
    · exact growing.fresh c hc
    · obtain rfl := List.mem_singleton.1 hc
      exact ⟨rfl, rfl⟩

@[simp] theorem kinds_append (l : Line) (t : Token) : (l.append t).kinds = l.kinds ++ [t.kind] := by
  simp [kinds, append, newCell, withCells]

end Line

def Braceless (kinds : List TokenKind) : Prop :=
  ∀ k ∈ kinds, k.isScopeBracket = false

inductive Layout where
  | nil
  | line (kinds : List TokenKind) (rest : Layout)
  /-- A header before a `{`, the lines up to the `}`, and what comes after. -/
  | block (header : List TokenKind) (body rest : Layout)

namespace Layout

def code : Layout → List (List TokenKind)
  | .nil => []
  | .line kinds rest => kinds :: rest.code
  | .block header body rest =>
      (header ++ [.openBrace]) :: (body.code ++ [.closeBrace] :: rest.code)

def All (P Q : List TokenKind → Prop) : Layout → Prop
  | .nil => True
  | .line kinds rest => P kinds ∧ rest.All P Q
  | .block header body rest => Q header ∧ body.All P Q ∧ rest.All P Q

def Braced (l : Layout) : Prop :=
  l.All Braceless Braceless

protected def append : Layout → Layout → Layout
  | .nil, after => after
  | .line kinds rest, after => .line kinds (rest.append after)
  | .block header body rest, after => .block header body (rest.append after)

instance : Append Layout :=
  ⟨Layout.append⟩

@[simp] theorem nil_append (after : Layout) : Layout.nil ++ after = after := rfl

@[simp] theorem line_append (kinds : List TokenKind) (rest after : Layout) :
    Layout.line kinds rest ++ after = .line kinds (rest ++ after) := rfl

@[simp] theorem block_append (header : List TokenKind) (body rest after : Layout) :
    Layout.block header body rest ++ after = .block header body (rest ++ after) := rfl

@[simp] theorem code_append (l after : Layout) : (l ++ after).code = l.code ++ after.code := by
  induction l with
  | nil => rfl
  | line kinds rest ih => simp [code, ih]
  | block header body rest _ ih => simp [code, ih]

theorem end_block (i : Nat) (header : List TokenKind) (body rest : Layout) :
    i + (Layout.block header body rest).code.length =
      i + 1 + body.code.length + 1 + rest.code.length := by
  simp only [code, List.length_cons, List.length_append]
  omega

@[simp] theorem all_append (P Q : List TokenKind → Prop) (l after : Layout) :
    (l ++ after).All P Q ↔ l.All P Q ∧ after.All P Q := by
  induction l with
  | nil => simp [All]
  | line kinds rest ih => simp [All, ih, and_assoc]
  | block header body rest _ ih => simp [All, ih, and_assoc]

theorem All.mono {P Q P' Q' : List TokenKind → Prop} (lines : ∀ kinds, P kinds → P' kinds)
    (headers : ∀ kinds, Q kinds → Q' kinds) {l : Layout} (all : l.All P Q) : l.All P' Q' := by
  induction l with
  | nil => trivial
  | line kinds rest ih => exact ⟨lines _ all.1, ih all.2⟩
  | block header body rest ihBody ih => exact ⟨headers _ all.1, ihBody all.2.1, ih all.2.2⟩

end Layout

/-!
## Scans for the end of a block
-/

namespace Program

theorem locatedLines_append (i : Nat) (before after : List Line) :
    locatedLines i (before ++ after) =
      locatedLines i before ++ locatedLines (i + before.length) after := by
  induction before generalizing i with
  | nil => rfl
  | cons line before ih =>
      simp only [List.cons_append, locatedLines, ih, List.append_assoc, List.length_cons]
      rw [Nat.add_assoc, Nat.add_comm 1]

theorem closeFrom_braceless {i depth : Nat} {cells : List Cell} {rest : List (Position × Token)}
    (plain : Braceless (cells.map fun c => c.token.kind)) :
    closeFrom depth (located i cells ++ rest) = closeFrom depth rest := by
  induction cells with
  | nil => rfl
  | cons c cells ih =>
      have here : c.token.kind.isScopeBracket = false := plain _ (by simp)
      have opening : c.token.kind ≠ .openBrace := by
        intro h
        simp [h, TokenKind.openBrace, TokenKind.isScopeBracket] at here
      have closing : c.token.kind ≠ .closeBrace := by
        intro h
        simp [h, TokenKind.closeBrace, TokenKind.isScopeBracket] at here
      simp only [located, List.map_cons, List.cons_append, closeFrom, opening, closing, if_false]
      exact ih fun k hk => plain k (by simp at hk ⊢; exact .inr hk)

end Program

open Program in
/-- A scan passes over a layout. -/
theorem Layout.closeFrom_code {l : Layout} (braced : l.Braced) {lines : List Line}
    (kinds : lines.map Line.kinds = l.code) (i depth : Nat) (rest : List (Position × Token)) :
    closeFrom (depth + 1) (locatedLines i lines ++ rest) = closeFrom (depth + 1) rest := by
  induction l generalizing lines i depth rest with
  | nil =>
      obtain rfl := List.map_eq_nil_iff.1 kinds
      rfl
  | line first l ih =>
      obtain ⟨line, lines, rfl, hline, hlines⟩ := List.map_eq_cons_iff.1 kinds
      have plain : Braceless line.kinds := hline ▸ braced.1
      rw [locatedLines, List.append_assoc, closeFrom_braceless plain]
      exact ih braced.2 hlines _ _ _
  | block header body l ihBody ih =>
      obtain ⟨line, rest', rfl, hline, hrest⟩ := List.map_eq_cons_iff.1 kinds
      obtain ⟨inner, after, rfl, hinner, hafter⟩ := List.map_eq_append_iff.1 hrest
      obtain ⟨close, lines, rfl, hclose, hlines⟩ := List.map_eq_cons_iff.1 hafter
      obtain ⟨hcells, last, hcellsEq, hheader, hlast⟩ := List.map_eq_append_iff.1 hline
      obtain ⟨b, rfl, hb⟩ := List.map_eq_singleton_iff.1 hlast
      obtain ⟨c, hc, hcKind⟩ := List.map_eq_singleton_iff.1 hclose
      have opens : ∀ rest, closeFrom (depth + 1) (located i line.cells ++ rest) =
          closeFrom (depth + 1 + 1) rest := by
        intro rest
        have split : located i line.cells = located i hcells ++ located i [b] := by
          rw [hcellsEq, located, List.map_append]
          rfl
        rw [split, List.append_assoc, closeFrom_braceless (hheader ▸ braced.1)]
        simp [located, closeFrom, hb]
      have closes : ∀ j rest, closeFrom (depth + 1 + 1) (located j close.cells ++ rest) =
          closeFrom (depth + 1) rest := by
        intro j rest
        simp [hc, located, closeFrom, hcKind, TokenKind.openBrace, TokenKind.closeBrace]
      rw [locatedLines, List.append_assoc, opens, locatedLines_append, List.append_assoc,
        ihBody braced.2.1 hinner, locatedLines, List.append_assoc, closes]
      exact ih braced.2.2 hlines _ _ _

/-!
## Code in a program
-/

namespace Program

def kinds (p : Program) : List (List TokenKind) :=
  p.lines.map Line.kinds

/-- The lines from an index on have tokens of the given kinds. -/
def CodeAt (p : Program) (i : Nat) (code : List (List TokenKind)) : Prop :=
  ∃ before after, p.kinds = before ++ code ++ after ∧ before.length = i

theorem codeAt_append {p : Program} {i : Nat} {a b : List (List TokenKind)} :
    p.CodeAt i (a ++ b) → p.CodeAt i a ∧ p.CodeAt (i + a.length) b := by
  rintro ⟨before, after, same, rfl⟩
  exact ⟨⟨before, b ++ after, by simp [same], rfl⟩, ⟨before ++ a, after, by simp [same], by simp⟩⟩

theorem codeAt_cons {p : Program} {i : Nat} {a : List TokenKind} {b : List (List TokenKind)}
    (code : p.CodeAt i (a :: b)) : p.CodeAt (i + 1) b :=
  (codeAt_append (a := [a]) code).2

theorem CodeAt.lines {p : Program} {i : Nat} {code : List (List TokenKind)}
    (at_i : p.CodeAt i code) :
    ∃ before lines after, p.lines = before ++ lines ++ after ∧ before.length = i ∧
      lines.map Line.kinds = code := by
  obtain ⟨before, after, same, rfl⟩ := at_i
  obtain ⟨front, rest, hlines, hfront, hrest⟩ := List.map_eq_append_iff.1 same
  obtain ⟨first, lines, rfl, rfl, hmid⟩ := List.map_eq_append_iff.1 hfront
  exact ⟨first, lines, rest, hlines, by simp, hmid⟩

theorem CodeAt.line {p : Program} {i : Nat} {first : List TokenKind} {rest : List (List TokenKind)}
    (at_i : p.CodeAt i (first :: rest)) : ∃ line, p.lines[i]? = some line ∧ line.kinds = first := by
  obtain ⟨before, lines, after, same, rfl, kinds⟩ := at_i.lines
  obtain ⟨line, lines, rfl, hline, -⟩ := List.map_eq_cons_iff.1 kinds
  exact ⟨line, by simp [same], hline⟩

def Loaded (p : Program) : Prop :=
  ∀ line ∈ p.lines, line.Loaded

theorem Loaded.line {p : Program} (loaded : p.Loaded) {i : Nat} {line : Line}
    (found : p.lines[i]? = some line) : line.Loaded :=
  loaded line (List.mem_of_getElem? found)

structure BlockAt (p : Program) (i : Nat) (header : List Cell) (brace : Cell) (j : Nat)
    (close : Cell) : Prop where
  opens : ∃ line, p.lines[i]? = some line ∧ line.cells = header ++ [brace] ∧ line.Loaded
  closes : ∃ line, p.lines[j]? = some line ∧ line.cells = [close] ∧ line.Loaded
  opening : brace.token.kind = .openBrace
  closing : close.token.kind = .closeBrace
  plain : Braceless (header.map fun c => c.token.kind)
  matched : p.blockEnd { line := i, token := brace.ref } = .ok { line := j, token := close.ref }

theorem lineAt_eq {p : Program} {i : Nat} {line : Line} (found : p.lines[i]? = some line) :
    p.lineAt i = .ok line := by
  simp [lineAt, found]

end Program

/-!
What is left of a line whose ends are dropped.
-/

namespace Line

variable {l l' : Line} {r first last : Ref}

theorem dropBefore_ok (dropped : l.dropBefore r = .ok l') :
    ∃ f, l.focus r = .ok f ∧ l' = l.withCells (f.cell :: f.after) := by
  unfold dropBefore cellsFrom at dropped
  cases found : l.focus r with
  | error fault => simp [found] at dropped
  | ok f =>
      simp only [found, Except.map_ok_eq, Except.ok.injEq] at dropped
      exact ⟨f, rfl, dropped.symm⟩

theorem keepRange_ok (kept : l.keepRange first last = .ok l') :
    ∃ tail f, l.dropBefore first = .ok tail ∧ tail.focus last = .ok f ∧
      l' = l.withCells (f.before.reverse ++ [f.cell]) := by
  unfold keepRange at kept
  cases started : l.dropBefore first with
  | error fault => simp [started] at kept
  | ok tail =>
      simp only [started, Except.bind_eq_bind, Except.bind_ok] at kept
      cases found : tail.focus last with
      | error fault => simp [found] at kept
      | ok f =>
          simp only [found, Except.bind_ok, Except.pure_eq_ok, Except.ok.injEq] at kept
          exact ⟨tail, f, rfl, found, kept.symm⟩

theorem suffix_dropBefore (dropped : l.dropBefore r = .ok l') : l'.cells <:+ l.cells := by
  obtain ⟨f, found, rfl⟩ := dropBefore_ok dropped
  exact ⟨f.before.reverse, (focus_ok found).1⟩

theorem infix_keepRange (kept : l.keepRange first last = .ok l') : l'.cells <:+: l.cells := by
  obtain ⟨tail, f, started, found, rfl⟩ := keepRange_ok kept
  have front : f.before.reverse ++ [f.cell] <+: tail.cells :=
    ⟨f.after, by rw [← (focus_ok found).1, Focus.cells, List.append_assoc]; rfl⟩
  exact front.isInfix.trans (suffix_dropBefore started).isInfix

theorem nextRef_dropBefore (dropped : l.dropBefore r = .ok l') : l'.nextRef = l.nextRef := by
  obtain ⟨f, -, rfl⟩ := dropBefore_ok dropped
  rfl

theorem nextRef_keepRange (kept : l.keepRange first last = .ok l') : l'.nextRef = l.nextRef := by
  obtain ⟨tail, f, -, -, rfl⟩ := keepRange_ok kept
  rfl

end Line

theorem Program.found_of_part {p : Program} {i : Nat} {l' : Line} {part : Line → Except Fault Line}
    (made : (do part (← p.lineAt i)) = .ok l') :
    ∃ line, p.lines[i]? = some line ∧ part line = .ok l' := by
  unfold lineAt at made
  split at made
  · rename_i line found
    exact ⟨line, found, made⟩
  · cases made

theorem Line.Loaded.focus {l : Line} (loaded : l.Loaded) (before : List Cell) {c : Cell}
    {after : List Cell} (cells : l.cells = before ++ c :: after) :
    l.focus c.ref = .ok { before := before.reverse, cell := c, after } :=
  Line.focus_eq loaded.distinct before cells

theorem Line.Loaded.keepRange {l : Line} (loaded : l.Loaded) {pre cells post : List Cell}
    (split : l.cells = pre ++ cells ++ post) {first last : Cell} (hfirst : cells.head? = some first)
    (hlast : cells.getLast? = some last) :
    l.keepRange first.ref last.ref = .ok (l.withCells cells) := by
  obtain ⟨tail, htail⟩ := List.head?_eq_some_iff.1 hfirst
  obtain ⟨init, hinit⟩ := List.getLast?_eq_some_iff.1 hlast
  have started : l.dropBefore first.ref = .ok (l.withCells (cells ++ post)) := by
    have here : l.cells = pre ++ first :: (tail ++ post) := by simp [split, htail]
    simp [Line.dropBefore, Line.cellsFrom, loaded.focus pre here, htail]
  have distinct : (l.withCells (cells ++ post)).refs.Nodup := by
    refine loaded.distinct.sublist ?_
    simp only [Line.refs, Line.withCells, split, List.append_assoc]
    exact (List.sublist_append_right pre (cells ++ post)).map _
  have here : (l.withCells (cells ++ post)).cells = init ++ last :: post := by
    simp [Line.withCells, hinit]
  have located := Line.focus_eq distinct init here
  simp [Line.keepRange, started, located, ← hinit]

namespace Program

theorem CodeAt.blockAt {p : Program} (loaded : p.Loaded) {i : Nat} {header : List TokenKind}
    {body : Layout} {rest : List (List TokenKind)} (plain : Braceless header)
    (braced : body.Braced)
    (code : p.CodeAt i ((header ++ [.openBrace]) :: (body.code ++ [.closeBrace] :: rest))) :
    ∃ cells brace close, p.BlockAt i cells brace (i + 1 + body.code.length) close ∧
      cells.map (fun c => c.token.kind) = header := by
  obtain ⟨before, lines, after, same, rfl, kinds⟩ := code.lines
  obtain ⟨line, rest', rfl, hline, hrest⟩ := List.map_eq_cons_iff.1 kinds
  obtain ⟨inner, last, rfl, hinner, hlast⟩ := List.map_eq_append_iff.1 hrest
  obtain ⟨closeLine, others, rfl, hclose, hothers⟩ := List.map_eq_cons_iff.1 hlast
  obtain ⟨cells, tail, hcells, hheader, htail⟩ := List.map_eq_append_iff.1 hline
  obtain ⟨b, rfl, hb⟩ := List.map_eq_singleton_iff.1 htail
  obtain ⟨c, hc, hcKind⟩ := List.map_eq_singleton_iff.1 hclose
  have size : body.code.length = inner.length := by rw [← hinner, List.length_map]
  have foundI : p.lines[before.length]? = some line := by simp [same]
  have foundJ : p.lines[before.length + 1 + body.code.length]? = some closeLine := by
    rw [size, Nat.add_assoc, Nat.add_comm 1, same, List.append_assoc,
      List.getElem?_append_right (by omega), Nat.add_sub_cancel_left]
    simp
  have loadedI := loaded.line foundI
  have dropped : p.lines.drop (before.length + 1) = inner ++ closeLine :: (others ++ after) := by
    rw [same]
    simp [List.drop_append]
  refine ⟨cells, b, c, ⟨⟨line, foundI, hcells, loadedI⟩,
    ⟨closeLine, foundJ, hc, loaded.line foundJ⟩, hb, hcKind, hheader ▸ plain, ?_⟩, hheader⟩
  have scanned : p.scanFrom { line := before.length, token := b.ref } =
      .ok (located before.length [b] ++
        locatedLines (before.length + 1) (inner ++ closeLine :: (others ++ after))) := by
    simp [scanFrom, lineAt_eq foundI, Line.cellsFrom, loadedI.focus _ hcells, dropped]
  have found : closeFrom 0 (located before.length [b] ++
      locatedLines (before.length + 1) (inner ++ closeLine :: (others ++ after))) =
      .ok (some { line := before.length + 1 + body.code.length, token := c.ref }) := by
    have opens : ∀ rest, closeFrom 0 (located before.length [b] ++ rest) = closeFrom 1 rest := by
      intro rest
      simp [located, closeFrom, hb]
    rw [opens, locatedLines_append, Layout.closeFrom_code braced hinner, locatedLines, size]
    simp [hc, located, closeFrom, hcKind, TokenKind.openBrace, TokenKind.closeBrace]
  simp [blockEnd, scanned, found, orFault]

/-!
## Looks into a block
-/

def headOf (i : Nat) (line : Line) : Option Position :=
  line.cells.head?.map fun c => { line := i, token := c.ref }

theorem firstFrom?_eq {p : Program} (loaded : p.Loaded) (i : Nat) :
    p.firstFrom? i = (p.lines[i]?).bind (headOf i) := by
  rw [firstFrom?]
  by_cases inside : i < p.lines.length
  · have found : p.lines[i]? = some p.lines[i] := List.getElem?_eq_getElem inside
    rw [List.drop_eq_getElem_cons inside, found]
    have filled := (loaded.line found).filled
    cases cells : p.lines[i].cells with
    | nil => exact absurd cells filled
    | cons c cs => simp [firstCell?, Line.first?, cells, headOf]
  · have outside : p.lines[i]? = none := List.getElem?_eq_none (by omega)
    rw [List.drop_eq_nil_of_le (by omega), outside]
    rfl

section

variable {p : Program} {i j : Nat} {header pre post : List Cell} {brace close c : Cell}

theorem BlockAt.blockStart (block : p.BlockAt i header brace j close)
    (here : header = pre ++ c :: post) :
    p.blockStart { line := i, token := c.ref } = .ok { line := i, token := brace.ref } := by
  obtain ⟨line, found, cells, loaded⟩ := block.opens
  have split : line.cells = pre ++ c :: (post ++ [brace]) := by simp [cells, here]
  have first : (post ++ [brace]).find? isOpenBrace = some brace := by
    have none : post.find? isOpenBrace = none := by
      rw [List.find?_eq_none]
      intro d hd opening
      have kind : d.token.kind = .openBrace := by simpa [isOpenBrace] using opening
      have := block.plain d.token.kind (List.mem_map.2 ⟨d, by simp [here, hd], rfl⟩)
      simp [kind, TokenKind.openBrace, TokenKind.isScopeBracket] at this
    simp [List.find?_append, none, isOpenBrace, block.opening]
  simp [Program.blockStart, lineAt_eq found, orFault, loaded.focus _ split, first]

theorem BlockAt.blockAfter (block : p.BlockAt i header brace j close) (pre : List Cell)
    (here : header = pre ++ c :: post) :
    p.blockAfter { line := i, token := c.ref } =
      .ok { opening := { line := i, token := brace.ref }
            closing := { line := j, token := close.ref } } := by
  simp [Program.blockAfter, block.blockStart here, block.matched]

theorem BlockAt.following (block : p.BlockAt i header brace j close) :
    p.following { line := j, token := close.ref } = .ok (p.firstFrom? (j + 1)) := by
  obtain ⟨line, found, cells, loaded⟩ := block.closes
  simp [Program.following, lineAt_eq found, Line.next, loaded.focus [] cells,
    Focus.next?]

end

end Program

end LineScript

import LineScript.Proofs.Layout

/-!
# Open braces

`openBefore lines t` lists the lines whose `{` is open before line `t`, the innermost first.  In a
program whose braces are balanced, a block is open from the line after its `{` to that of its `}`
(`Program.Balanced.mem_openAt_iff`), a `}` closes the innermost open brace, and a scan for the end
of a block comes to the same result (`Program.Balanced.exists_close`).
-/

namespace LineScript

namespace Line

def opens (l : Line) : Bool :=
  l.cells.getLast?.any fun c => c.token.kind = .openBrace

def closes (l : Line) : Bool :=
  l.cells.head?.any fun c => c.token.kind = .closeBrace

/-- Braces are where a reader puts them: a `{` ends its line, a `}` is alone. -/
inductive Edged (l : Line) : Prop where
  | plain (bare : Braceless l.kinds)
  | opening (header : List Cell) (brace : Cell) (cells : l.cells = header ++ [brace])
      (bare : Braceless (header.map fun c => c.token.kind)) (kind : brace.token.kind = .openBrace)
  | closing (close : Cell) (cells : l.cells = [close]) (kind : close.token.kind = .closeBrace)

def openAfter (l : Line) (t : Nat) (outer : List Nat) : List Nat :=
  if l.closes then outer.tail else if l.opens then t :: outer else outer

theorem not_opens_of_bare {l : Line} (bare : Braceless l.kinds) :
    l.opens = false ∧ l.closes = false := by
  have other : ∀ c ∈ l.cells, c.token.kind.isScopeBracket = false := fun c hc =>
    bare _ (List.mem_map_of_mem hc)
  constructor
  · rw [opens]
    cases last : l.cells.getLast? with
    | none => rfl
    | some c =>
        have := other c (List.mem_of_getLast? last)
        simp only [Option.any_some, decide_eq_false_iff_not]
        intro kind
        simp [kind, TokenKind.openBrace, TokenKind.isScopeBracket] at this
  · rw [closes]
    cases first : l.cells.head? with
    | none => rfl
    | some c =>
        have := other c (List.mem_of_head? first)
        simp only [Option.any_some, decide_eq_false_iff_not]
        intro kind
        simp [kind, TokenKind.closeBrace, TokenKind.isScopeBracket] at this

theorem opens_of_cells {l : Line} {header : List Cell} {brace : Cell}
    (cells : l.cells = header ++ [brace]) (kind : brace.token.kind = .openBrace) :
    l.opens = true := by
  simp [opens, cells, kind]

theorem not_closes_of_cells {l : Line} {header : List Cell} {brace : Cell}
    (cells : l.cells = header ++ [brace]) (bare : Braceless (header.map fun c => c.token.kind))
    (kind : brace.token.kind = .openBrace) : l.closes = false := by
  cases header with
  | nil => simp [closes, cells, kind, TokenKind.openBrace, TokenKind.closeBrace]
  | cons c header =>
      have := bare c.token.kind (by simp)
      simp only [closes, cells, List.cons_append, List.head?_cons, Option.any_some,
        decide_eq_false_iff_not]
      intro kind
      simp [kind, TokenKind.closeBrace, TokenKind.isScopeBracket] at this

theorem openAfter_bare {l : Line} (bare : Braceless l.kinds) (t : Nat) (outer : List Nat) :
    l.openAfter t outer = outer := by
  simp [openAfter, not_opens_of_bare bare]

theorem openAfter_opening {l : Line} {header : List Cell} {brace : Cell}
    (cells : l.cells = header ++ [brace]) (bare : Braceless (header.map fun c => c.token.kind))
    (kind : brace.token.kind = .openBrace) (t : Nat) (outer : List Nat) :
    l.openAfter t outer = t :: outer := by
  simp [openAfter, not_closes_of_cells cells bare kind, opens_of_cells cells kind]

theorem openAfter_closing {l : Line} {close : Cell} (cells : l.cells = [close])
    (kind : close.token.kind = .closeBrace) (t : Nat) (outer : List Nat) :
    l.openAfter t outer = outer.tail := by
  simp [openAfter, closes, cells, kind]

end Line

def openBefore (lines : List Line) : Nat → List Nat
  | 0 => []
  | t + 1 =>
      match lines[t]? with
      | some line => line.openAfter t (openBefore lines t)
      | none => openBefore lines t

theorem openBefore_succ {lines : List Line} {t : Nat} {line : Line}
    (found : lines[t]? = some line) :
    openBefore lines (t + 1) = line.openAfter t (openBefore lines t) := by
  rw [openBefore, found]

theorem openBefore_append (lines more : List Line) {t : Nat} (le : t ≤ lines.length) :
    openBefore (lines ++ more) t = openBefore lines t := by
  induction t with
  | zero => rfl
  | succ t ih => rw [openBefore, openBefore, List.getElem?_append_left (by omega), ih (by omega)]

theorem openBefore_concat (lines : List Line) (line : Line) :
    openBefore (lines ++ [line]) (lines ++ [line]).length =
      line.openAfter lines.length (openBefore lines lines.length) := by
  have last : (lines ++ [line])[lines.length]? = some line := by simp
  rw [List.length_append, List.length_singleton, openBefore_succ last,
    openBefore_append lines [line] (Nat.le_refl _)]

/-!
## Braces of loaded programs
-/

/-- Every line is as the reader leaves it, and braces come in pairs. -/
structure Program.Balanced (p : Program) : Prop where
  loaded : p.Loaded
  edged : ∀ line ∈ p.lines, line.Edged
  opened : ∀ t line, p.lines[t]? = some line → line.closes = true → openBefore p.lines t ≠ []
  closed : openBefore p.lines p.lines.length = []

namespace Draft

structure Matched (s : Draft) : Prop where
  lines : ∀ line ∈ s.lines, line.Loaded ∧ line.Edged
  growing : s.current.Growing
  bare : Braceless s.current.kinds
  opened : ∀ t line, s.lines[t]? = some line → line.closes = true → openBefore s.lines t ≠ []
  braces : (openBefore s.lines s.lines.length).length = s.braces.length
  parens : ∀ open_ ∈ s.parens, open_.1 ≠ .scope

theorem matched_empty : ({} : Draft).Matched where
  lines := by simp
  growing := Line.growing_empty
  bare := by simp [Braceless, Line.kinds]
  opened := by simp
  braces := rfl
  parens := by simp

theorem Matched.finish {s s' : Draft} (matched : s.Matched) {line : Line} (loaded : line.Loaded)
    (edged : line.Edged) (opened : line.closes = true → openBefore s.lines s.lines.length ≠ [])
    (lines : s'.lines = s.lines ++ [line]) (current : s'.current = {})
    (braces : (line.openAfter s.lines.length (openBefore s.lines s.lines.length)).length =
      s'.braces.length) (parens : s'.parens = s.parens) : s'.Matched where
  lines := by
    intro l hl
    rw [lines, List.mem_append, List.mem_singleton] at hl
    rcases hl with hl | rfl
    · exact matched.lines l hl
    · exact ⟨loaded, edged⟩
  growing := by rw [current]; exact Line.growing_empty
  bare := by simp [current, Braceless, Line.kinds]
  opened := by
    intro t l found closes
    rw [lines] at found ⊢
    have bound : t < s.lines.length + 1 := by
      have := (List.getElem?_eq_some_iff.1 found).1
      simpa using this
    rw [openBefore_append _ _ (by omega)]
    rcases Nat.lt_or_ge t s.lines.length with lt | ge
    · rw [List.getElem?_append_left lt] at found
      exact matched.opened t l found closes
    · obtain rfl : t = s.lines.length := by omega
      obtain rfl : line = l := by simpa using found
      exact opened closes
  braces := by rw [lines, openBefore_concat, braces]
  parens := by rw [parens]; exact matched.parens

theorem Matched.put {s : Draft} (matched : s.Matched) {k : TokenKind}
    (plain : k.isScopeBracket = false) (n : Nat) : (s.put k n).Matched where
  lines := matched.lines
  growing := matched.growing.append k s.nextId n
  bare := by
    intro k' hk'
    rw [Draft.put, Line.kinds_append, List.mem_append, List.mem_singleton] at hk'
    rcases hk' with hk' | rfl
    · exact matched.bare k' hk'
    · exact plain
  opened := matched.opened
  braces := matched.braces
  parens := matched.parens

theorem Matched.withParens {s : Draft} (matched : s.Matched) {parens : List (Bracket × Nat)}
    (round : ∀ open_ ∈ parens, open_.1 ≠ .scope) : ({ s with parens } : Draft).Matched :=
  ⟨matched.lines, matched.growing, matched.bare, matched.opened, matched.braces, round⟩

theorem Matched.closeLine {s : Draft} (matched : s.Matched) : s.closeLine.Matched := by
  rw [Draft.closeLine]
  by_cases empty : s.current.isEmpty = true
  · rw [if_pos empty]
    exact ⟨matched.lines, matched.growing, matched.bare, matched.opened, matched.braces,
      matched.parens⟩
  · have filled : s.current.cells ≠ [] := by simpa [Line.isEmpty] using empty
    rw [if_neg empty]
    refine matched.finish ⟨filled, matched.growing.sound, matched.growing.fresh⟩
      (.plain matched.bare) ?_ rfl rfl ?_ ?_
    · rw [(Line.not_opens_of_bare matched.bare).2]
      exact fun h => by cases h
    · rw [Line.openAfter_bare matched.bare]
      exact matched.braces
    · rfl

theorem current_closeLine (s : Draft) : s.closeLine.current.cells = [] := by
  rw [closeLine]
  by_cases empty : s.current.isEmpty = true
  · rw [if_pos empty]
    simpa [Line.isEmpty] using empty
  · rw [if_neg empty]

theorem Matched.openBrace {s : Draft} (matched : s.Matched) (n : Nat) :
    (({ s with braces := n :: s.braces } : Draft).put .openBrace n).closeLine.Matched := by
  let brace : Cell := ⟨s.current.nextRef, .new .openBrace s.nextId n⟩
  have cells : (s.current.append (.new .openBrace s.nextId n)).cells = s.current.cells ++ [brace] :=
    rfl
  have growing := matched.growing.append .openBrace s.nextId n
  have notEmpty : (s.current.append (.new .openBrace s.nextId n)).isEmpty = false := by
    simp [Line.isEmpty, cells]
  rw [Draft.closeLine, Draft.put]
  simp only [notEmpty, Bool.false_eq_true, if_false]
  refine matched.finish ⟨by simp [cells], growing.sound, growing.fresh⟩
    (.opening _ brace cells matched.bare rfl) ?_ rfl rfl ?_ rfl
  · rw [Line.not_closes_of_cells cells matched.bare rfl]
    exact fun h => by cases h
  · rw [Line.openAfter_opening cells matched.bare rfl, List.length_cons, matched.braces]
    rfl

theorem Matched.closeBrace {s : Draft} (matched : s.Matched) {b : Nat} {bs : List Nat}
    (braces : s.braces = b :: bs) (n : Nat) :
    (({ s with braces := bs } : Draft).closeLine.put .closeBrace n).closeLine.Matched := by
  have closed := matched.closeLine
  have same : ({ s with braces := bs } : Draft).closeLine = { s.closeLine with braces := bs } := by
    unfold Draft.closeLine
    by_cases h : s.current.isEmpty <;> simp [h]
  have kept : s.closeLine.braces = s.braces := by
    unfold Draft.closeLine
    by_cases h : s.current.isEmpty <;> simp [h]
  have count := closed.braces
  rw [kept, braces, List.length_cons] at count
  have growing := closed.growing.append .closeBrace s.closeLine.nextId n
  have cells : (s.closeLine.current.append (.new .closeBrace s.closeLine.nextId n)).cells =
      [⟨s.closeLine.current.nextRef, .new .closeBrace s.closeLine.nextId n⟩] := by
    simp [Line.append, Line.newCell, Line.withCells, current_closeLine]
  have notEmpty :
      (s.closeLine.current.append (.new .closeBrace s.closeLine.nextId n)).isEmpty = false := by
    simp [Line.isEmpty, cells]
  rw [same, Draft.put, Draft.closeLine]
  simp only [notEmpty, Bool.false_eq_true, if_false]
  refine closed.finish ⟨by simp [cells], growing.sound, growing.fresh⟩ (.closing _ cells rfl) ?_
    rfl rfl ?_ rfl
  · intro _ empty
    rw [empty] at count
    simp at count
  · rw [Line.openAfter_closing cells rfl, List.length_tail, count]
    rfl

theorem Matched.add {s s' : Draft} (matched : s.Matched) {lexeme : Lexeme} {n : Nat}
    (added : s.add lexeme n = .ok s') : s'.Matched := by
  cases lexeme with
  | newline =>
      cases added
      split
      · exact matched.closeLine
      · exact matched
  | semicolon =>
      cases added
      split
      · exact matched.closeLine
      · exact matched.put rfl n
  | label name =>
      simp only [Draft.add] at added
      split at added
      · cases added
      · cases added
        have closed := matched.closeLine
        exact ⟨closed.lines, closed.growing, closed.bare, closed.opened, closed.braces,
          closed.parens⟩
  | openBrace =>
      simp only [Draft.add, requireNoParen] at added
      split at added
      · cases added
        exact matched.openBrace n
      · cases added
  | closeBrace =>
      simp only [Draft.add, requireNoParen] at added
      split at added
      · cases braces : s.braces with
        | nil => simp [braces, throw, throwThe, MonadExceptOf.throw] at added
        | cons b bs =>
            simp only [braces] at added
            cases added
            exact matched.closeBrace braces n
      · cases added
  | openParen =>
      cases added
      have round : (if s.afterName then Bracket.call else .paren) ≠ .scope := by
        split <;> decide
      refine (matched.withParens ?_).put ?_ n
      · intro open_ member
        rcases List.mem_cons.1 member with rfl | member
        · exact round
        · exact matched.parens open_ member
      · split <;> rfl
  | closeParen =>
      simp only [Draft.add] at added
      split at added
      · cases added
      · rename_i bracket _ parens found
        cases added
        have round := matched.parens
        rw [found] at round
        refine (matched.withParens fun open_ member =>
          round open_ (List.mem_cons_of_mem _ member)).put
          ?_ n
        have notScope := round _ (List.mem_cons_self ..)
        cases bracket with
        | scope => exact absurd rfl notScope
        | _ => rfl
  | operator op =>
      cases op <;> cases added <;> exact matched.put rfl n
  | _ =>
      cases added
      exact matched.put rfl n

theorem Matched.addAll {s s' : Draft} (matched : s.Matched) {lexemes : List (Lexeme × Nat)}
    (added : s.addAll lexemes = .ok s') : s'.Matched := by
  induction lexemes generalizing s with
  | nil =>
      cases added
      exact matched
  | cons first rest ih =>
      obtain ⟨lexeme, n⟩ := first
      rw [Draft.addAll] at added
      cases step : s.add lexeme n with
      | error e => simp [step] at added
      | ok s₁ =>
          rw [step] at added
          exact ih (matched.add step) added

end Draft

theorem Program.exists_draft {source : String} {p : Program}
    (loaded : Program.load source = .ok p) :
    ∃ lexemes s, ({} : Draft).addAll lexemes = .ok s ∧ s.toProgram = .ok p := by
  unfold Program.load at loaded
  cases scanned : lexemes source with
  | error e => simp [scanned] at loaded
  | ok all =>
      simp only [scanned, Except.bind_eq_bind, Except.bind_ok, Program.ofLexemes] at loaded
      cases read : ({} : Draft).addAll all with
      | error e => simp [read] at loaded
      | ok s =>
          rw [read, Except.bind_ok] at loaded
          exact ⟨all, s, read, loaded⟩

theorem Program.balanced_of_load {source : String} {p : Program}
    (loaded : Program.load source = .ok p) : p.Balanced := by
  obtain ⟨lexemes, s, read, made⟩ := exists_draft loaded
  have matched := (Draft.matched_empty.addAll read).closeLine
  unfold Draft.toProgram at made
  split at made
  · cases made
  · cases made
  · rename_i braces
    cases made
    have kept : s.closeLine.braces = [] := by
      rw [← braces, Draft.closeLine]
      split <;> rfl
    refine ⟨fun line member => (matched.lines line member).1,
      fun line member => (matched.lines line member).2, matched.opened, ?_⟩
    have count := matched.braces
    rw [kept] at count
    exact List.length_eq_zero_iff.1 count

/-!
## Blocks
-/

namespace Program

def openAt (p : Program) (t : Nat) : List Nat :=
  openBefore p.lines t

inductive Turns (p : Program) (t : Nat) (line : Line) : Prop where
  | level (bare : Braceless line.kinds) (open_ : p.openAt (t + 1) = p.openAt t)
  | opening (header : List Cell) (brace : Cell) (cells : line.cells = header ++ [brace])
      (bare : Braceless (header.map fun c => c.token.kind)) (kind : brace.token.kind = .openBrace)
      (open_ : p.openAt (t + 1) = t :: p.openAt t)
  | closing (close : Cell) (i : Nat) (cells : line.cells = [close])
      (kind : close.token.kind = .closeBrace) (open_ : p.openAt t = i :: p.openAt (t + 1))

namespace Balanced

variable {p : Program} {t i : Nat}

theorem openAt_closing (balanced : p.Balanced) {line : Line} {close : Cell}
    (found : p.lines[t]? = some line) (cells : line.cells = [close])
    (kind : close.token.kind = .closeBrace) : ∃ i, p.openAt t = i :: p.openAt (t + 1) := by
  have next : p.openAt (t + 1) = line.openAfter t (p.openAt t) := openBefore_succ found
  have notEmpty := balanced.opened t line found (by simp [Line.closes, cells, kind])
  rw [Line.openAfter_closing cells kind] at next
  cases open_ : p.openAt t with
  | nil => exact absurd open_ notEmpty
  | cons i outer => exact ⟨i, by rw [next, open_, List.tail_cons]⟩

theorem turns (balanced : p.Balanced) {line : Line} (found : p.lines[t]? = some line) :
    p.Turns t line := by
  have next : p.openAt (t + 1) = line.openAfter t (p.openAt t) := openBefore_succ found
  cases balanced.edged line (List.mem_of_getElem? found) with
  | plain bare => exact .level bare (by rw [next, Line.openAfter_bare bare])
  | opening header brace cells bare kind =>
      exact .opening header brace cells bare kind
        (by rw [next, Line.openAfter_opening cells bare kind])
  | closing close cells kind =>
      obtain ⟨i, open_⟩ := balanced.openAt_closing found cells kind
      exact .closing close i cells kind open_

/-- Outer braces were opened before inner ones, and all of them before the line. -/
theorem sorted_openAt (balanced : p.Balanced) (t : Nat) :
    (p.openAt t).Pairwise (· > ·) ∧ ∀ i ∈ p.openAt t, i < t := by
  induction t with
  | zero => exact ⟨.nil, by simp [openAt, openBefore]⟩
  | succ t ih =>
      obtain ⟨sorted, below⟩ := ih
      have later : ∀ i ∈ p.openAt t, i < t + 1 := fun i hi => Nat.lt_succ_of_lt (below i hi)
      cases found : p.lines[t]? with
      | none =>
          have same : p.openAt (t + 1) = p.openAt t := by simp [openAt, openBefore, found]
          rw [same]
          exact ⟨sorted, later⟩
      | some line =>
          cases balanced.turns found with
          | level _ same =>
              rw [same]
              exact ⟨sorted, later⟩
          | opening _ _ _ _ _ same =>
              rw [same]
              refine ⟨List.pairwise_cons.2 ⟨below, sorted⟩, ?_⟩
              intro i hi
              rcases List.mem_cons.1 hi with rfl | hi
              · exact Nat.lt_succ_self i
              · exact later i hi
          | closing _ i _ _ same =>
              rw [same] at sorted later
              exact ⟨(List.pairwise_cons.1 sorted).2, fun i hi =>
                later i (List.mem_cons_of_mem _ hi)⟩

theorem lt_of_mem_openAt (balanced : p.Balanced) (member : i ∈ p.openAt t) : i < t :=
  (balanced.sorted_openAt t).2 i member

/-- Below an open brace are those that were open when it was opened. -/
theorem openAt_eq_append (balanced : p.Balanced) (member : i ∈ p.openAt t) :
    ∃ inner, p.openAt t = inner ++ i :: p.openAt i := by
  induction t with
  | zero => simp [openAt, openBefore] at member
  | succ t ih =>
      cases found : p.lines[t]? with
      | none =>
          have same : p.openAt (t + 1) = p.openAt t := by simp [openAt, openBefore, found]
          rw [same] at member ⊢
          exact ih member
      | some line =>
          cases balanced.turns found with
          | level _ same =>
              rw [same] at member ⊢
              exact ih member
          | opening _ _ _ _ _ same =>
              rw [same] at member ⊢
              rcases List.mem_cons.1 member with rfl | member
              · exact ⟨[], rfl⟩
              · obtain ⟨inner, h⟩ := ih member
                exact ⟨t :: inner, by rw [h, List.cons_append]⟩
          | closing _ x _ _ same =>
              have member' : i ∈ p.openAt t := by
                rw [same]
                exact List.mem_cons_of_mem _ member
              obtain ⟨inner, h⟩ := ih member'
              -- The brace that is closed here lies above the one in question.
              have sorted := (balanced.sorted_openAt t).1
              rw [same, List.pairwise_cons] at sorted
              cases inner with
              | nil =>
                  rw [same] at h
                  have above := sorted.1 i member
                  rw [(List.cons.inj h).1] at above
                  exact absurd above (Nat.lt_irrefl i)
              | cons y inner =>
                  rw [same] at h
                  exact ⟨inner, (List.cons.inj h).2⟩

theorem openAt_head (balanced : p.Balanced) {outer : List Nat} (open_ : p.openAt t = i :: outer) :
    outer = p.openAt i := by
  obtain ⟨inner, h⟩ := balanced.openAt_eq_append (t := t) (i := i) (by simp [open_])
  have sorted := (balanced.sorted_openAt t).1
  rw [open_] at h sorted
  cases inner with
  | nil => exact (List.cons.inj h).2
  | cons y inner =>
      have member : i ∈ outer := by
        rw [(List.cons.inj h).2]
        simp
      exact absurd ((List.pairwise_cons.1 sorted).1 i member) (Nat.lt_irrefl i)

theorem openAt_of_length_le (balanced : p.Balanced) (le : p.lines.length ≤ t) :
    p.openAt t = [] := by
  induction t with
  | zero => rfl
  | succ t ih =>
      rcases Nat.lt_or_ge t p.lines.length with lt | ge
      · obtain same : t + 1 = p.lines.length := by omega
        rw [same]
        exact balanced.closed
      · rw [openAt, openBefore, List.getElem?_eq_none ge]
        exact ih ge

/-- A scan from a line at which a brace is open finds where it is closed. -/
theorem scan_open (balanced : p.Balanced) (inner : List Nat) {outer : List Nat}
    (open_ : p.openAt t = inner ++ i :: outer) :
    ∃ j line close, t ≤ j ∧ p.lines[j]? = some line ∧ line.cells = [close] ∧
      close.token.kind = .closeBrace ∧ p.openAt j = i :: p.openAt (j + 1) ∧
      closeFrom (inner.length + 1) (locatedLines t (p.lines.drop t)) =
        .ok (some { line := j, token := close.ref }) ∧
      ∀ s, t ≤ s → s ≤ j → i ∈ p.openAt s := by
  induction size : p.lines.length - t generalizing t inner with
  | zero =>
      rw [balanced.openAt_of_length_le (by omega)] at open_
      simp at open_
  | succ d ih =>
      have inside : t < p.lines.length := by omega
      have found : p.lines[t]? = some p.lines[t] := List.getElem?_eq_getElem inside
      have member : i ∈ p.openAt t := by simp [open_]
      -- Where the scan goes on with the next line, the brace stays open up to its end.
      have onward : ∀ inner' : List Nat, p.openAt (t + 1) = inner' ++ i :: outer →
          closeFrom (inner.length + 1) (locatedLines t (p.lines.drop t)) =
            closeFrom (inner'.length + 1) (locatedLines (t + 1) (p.lines.drop (t + 1))) →
          ∃ j line close, t ≤ j ∧ p.lines[j]? = some line ∧ line.cells = [close] ∧
            close.token.kind = .closeBrace ∧ p.openAt j = i :: p.openAt (j + 1) ∧
            closeFrom (inner.length + 1) (locatedLines t (p.lines.drop t)) =
              .ok (some { line := j, token := close.ref }) ∧
            ∀ s, t ≤ s → s ≤ j → i ∈ p.openAt s := by
        intro inner' next scan
        obtain ⟨j, line, close, le, at_j, cells, kind, top, result, all⟩ :=
          ih inner' next (by omega)
        refine ⟨j, line, close, by omega, at_j, cells, kind, top, by rw [scan, result], ?_⟩
        intro s ge hs
        rcases Nat.eq_or_lt_of_le ge with rfl | lt
        · exact member
        · exact all s lt hs
      have split : p.lines.drop t = p.lines[t] :: p.lines.drop (t + 1) :=
        List.drop_eq_getElem_cons inside
      cases balanced.turns found with
      | level bare same =>
          refine onward inner (same.trans open_) ?_
          rw [split, locatedLines, closeFrom_braceless bare]
      | opening header brace cells bare kind same =>
          refine onward (t :: inner) (by rw [same, open_, List.cons_append]) ?_
          have parts : located t p.lines[t].cells = located t header ++ located t [brace] := by
            rw [cells, located, List.map_append]
            rfl
          rw [split, locatedLines, parts, List.append_assoc, closeFrom_braceless bare]
          simp [located, closeFrom, kind]
      | closing close x cells kind same =>
          cases inner with
          | nil =>
              obtain rfl : x = i := by
                rw [same] at open_
                exact (List.cons.inj open_).1
              refine ⟨t, p.lines[t], close, Nat.le_refl t, found, cells, kind, same, ?_, ?_⟩
              · rw [split, locatedLines, cells]
                simp [located, closeFrom, kind, TokenKind.openBrace, TokenKind.closeBrace]
              · intro s ge le
                obtain rfl : s = t := by omega
                exact member
          | cons y inner =>
              refine onward inner ?_ ?_
              · rw [same] at open_
                exact (List.cons.inj open_).2
              · rw [split, locatedLines, cells]
                simp [located, closeFrom, kind, TokenKind.openBrace, TokenKind.closeBrace]

theorem mem_openAt_of_le (balanced : p.Balanced) {s : Nat} (member : i ∈ p.openAt t) (after : i < s)
    (le : s ≤ t) : i ∈ p.openAt s := by
  induction t with
  | zero => simp [openAt, openBefore] at member
  | succ t ih =>
      rcases Nat.eq_or_lt_of_le le with rfl | lt
      · exact member
      · refine ih ?_ (by omega)
        cases found : p.lines[t]? with
        | none => simpa [openAt, openBefore, found] using member
        | some line =>
            cases balanced.turns found with
            | level _ same => exact same ▸ member
            | opening _ _ _ _ _ same =>
                rw [same, List.mem_cons] at member
                rcases member with rfl | member
                · omega
                · exact member
            | closing _ _ _ _ same =>
                rw [same]
                exact List.mem_cons_of_mem _ member

end Balanced

def BraceAt (p : Program) (b : Position) : Prop :=
  ∃ line header brace, p.lines[b.line]? = some line ∧ line.cells = header ++ [brace] ∧
    brace.token.kind = .openBrace ∧ brace.ref = b.token

structure IsBlock (p : Program) (e : Extent) : Prop where
  brace : p.BraceAt e.opening
  matched : p.blockEnd e.opening = .ok e.closing

end Program

/-- A line lies in the block: after its `{`, up to its `}`. -/
def Extent.Encloses (e : Extent) (t : Nat) : Prop :=
  e.opening.line < t ∧ t ≤ e.closing.line

namespace Program

variable {p : Program} {t : Nat} {b : Position} {e : Extent}

theorem BraceAt.openAt_succ (brace : p.BraceAt b) (balanced : p.Balanced) :
    p.openAt (b.line + 1) = b.line :: p.openAt b.line := by
  obtain ⟨line, header, c, found, cells, kind, -⟩ := brace
  cases balanced.turns found with
  | level bare _ =>
      have := bare c.token.kind (by simp [Line.kinds, cells])
      simp [kind, TokenKind.openBrace, TokenKind.isScopeBracket] at this
  | opening _ _ _ _ _ same => exact same
  | closing close _ cells' kind' _ =>
      rw [cells'] at cells
      have same : c = close := by
        cases header with
        | nil => simpa using cells.symm
        | cons d header => simp at cells
      rw [same, kind'] at kind
      cases kind

structure Ends (p : Program) (e : Extent) (close : Cell) : Prop where
  found : ∃ line, p.lines[e.closing.line]? = some line ∧ line.cells = [close]
  kind : close.token.kind = .closeBrace
  ref : close.ref = e.closing.token
  inside : p.openAt e.closing.line = e.opening.line :: p.openAt e.opening.line
  outside : p.openAt (e.closing.line + 1) = p.openAt e.opening.line
  open_ : ∀ s, e.Encloses s → e.opening.line ∈ p.openAt s

theorem BraceAt.exists_block (brace : p.BraceAt b) (balanced : p.Balanced) :
    ∃ closing close, p.blockEnd b = .ok closing ∧ p.Ends { opening := b, closing } close := by
  have open_ := brace.openAt_succ balanced
  obtain ⟨line, header, c, found, cells, kind, ref⟩ := brace
  obtain ⟨j, last, close, le, at_j, closes, closing, top, scanned, all⟩ :=
    balanced.scan_open [] open_
  have outside : p.openAt (j + 1) = p.openAt b.line := balanced.openAt_head top
  refine ⟨{ line := j, token := close.ref }, close, ?_,
    ⟨⟨last, at_j, closes⟩, closing, rfl, by rw [top, outside], outside, ?_⟩⟩
  · have scan : p.scanFrom b =
        .ok (located b.line [c] ++ locatedLines (b.line + 1) (p.lines.drop (b.line + 1))) := by
      rw [scanFrom, lineAt_eq found, ← ref]
      simp [Line.cellsFrom, (balanced.loaded.line found).focus _ cells]
    have opens : closeFrom 0 (located b.line [c] ++
        locatedLines (b.line + 1) (p.lines.drop (b.line + 1))) =
          .ok (some { line := j, token := close.ref }) := by
      rw [← scanned]
      simp [located, closeFrom, kind]
    simp [blockEnd, scan, opens, orFault]
  · intro s within
    exact all s within.1 within.2

theorem IsBlock.ends (block : p.IsBlock e) (balanced : p.Balanced) : ∃ close, p.Ends e close := by
  obtain ⟨closing, close, matched, ends⟩ := block.brace.exists_block balanced
  rw [block.matched] at matched
  cases matched
  exact ⟨close, ends⟩

theorem Balanced.block_of_mem_openAt (balanced : p.Balanced) {i : Nat} (member : i ∈ p.openAt t) :
    ∃ e, p.IsBlock e ∧ e.opening.line = i := by
  induction t with
  | zero => simp [openAt, openBefore] at member
  | succ t ih =>
      cases found : p.lines[t]? with
      | none => exact ih (by simpa [openAt, openBefore, found] using member)
      | some line =>
          cases balanced.turns found with
          | level _ same => exact ih (same ▸ member)
          | closing _ _ _ _ same =>
              refine ih ?_
              rw [same]
              exact List.mem_cons_of_mem _ member
          | opening header brace cells _ kind same =>
              rw [same, List.mem_cons] at member
              rcases member with rfl | member
              · have here : p.BraceAt { line := i, token := brace.ref } :=
                  ⟨line, header, brace, found, cells, kind, rfl⟩
                obtain ⟨closing, close, matched, -⟩ := here.exists_block balanced
                exact ⟨{ opening := ⟨i, brace.ref⟩, closing }, ⟨here, matched⟩, rfl⟩
              · exact ih member

theorem IsBlock.encloses_iff (block : p.IsBlock e) (balanced : p.Balanced) :
    e.Encloses t ↔ e.opening.line ∈ p.openAt t := by
  obtain ⟨close, ends⟩ := block.ends balanced
  refine ⟨ends.open_ t, ?_⟩
  intro member
  have after := balanced.lt_of_mem_openAt member
  refine ⟨after, ?_⟩
  rcases Nat.lt_or_ge e.closing.line t with lt | le
  · have inside : e.opening.line ∈ p.openAt e.closing.line := by simp [ends.inside]
    have before := balanced.lt_of_mem_openAt inside
    have still := balanced.mem_openAt_of_le member (s := e.closing.line + 1) (by omega) lt
    rw [ends.outside] at still
    exact absurd (balanced.lt_of_mem_openAt still) (Nat.lt_irrefl _)
  · exact le

theorem IsBlock.closing_line (block : p.IsBlock e) (balanced : p.Balanced) {line : Line} {c : Cell}
    (found : p.lines[t]? = some line) (cells : line.cells = [c]) (kind : c.token.kind = .closeBrace)
    {outer : List Nat} (top : p.openAt t = e.opening.line :: outer) : e.closing.line = t := by
  have within : e.Encloses t := (block.encloses_iff balanced).2 (by simp [top])
  rcases Nat.eq_or_lt_of_le within.2 with same | lt
  · exact same.symm
  · have still : e.opening.line ∈ p.openAt (t + 1) :=
      (block.encloses_iff balanced).1 ⟨Nat.lt_succ_of_lt within.1, lt⟩
    obtain ⟨x, same⟩ := balanced.openAt_closing found cells kind
    have sorted := (balanced.sorted_openAt t).1
    rw [same, List.pairwise_cons] at sorted
    rw [same] at top
    rw [(List.cons.inj top).1] at sorted
    exact absurd (sorted.1 _ still) (Nat.lt_irrefl _)

end Program

end LineScript

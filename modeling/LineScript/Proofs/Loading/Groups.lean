import LineScript.Proofs.Loading.Parentheses
import LineScript.Proofs.Loading.Partners

/-!
# Parentheses and their partners

The end of a parenthesis is found twice.  The reader of a script closes the innermost open one,
whichever kind it is of.  A run looks for the end of a call or of a group in its line, and counts
only parentheses of the same kind.  Where the parentheses of a line are paired both come to the same
token, and what stands in between is balanced in each kind by itself (`Program.closerOf_pairs`).
-/

namespace LineScript

/-!
## Counting one kind
-/

def openCount? (b : Bracket) : Nat → List TokenKind → Option Nat
  | depth, [] => some depth
  | depth, k :: ks =>
      if k = .bracket b .opening then openCount? b (depth + 1) ks
      else if k = .bracket b .closing then
        match depth with
        | 0 => none
        | depth + 1 => openCount? b depth ks
      else openCount? b depth ks

section Count

variable {b b' : Bracket} {k : TokenKind} {ks : List TokenKind} {cells : List Cell}

theorem openCount?_opening (depth : Nat) :
    openCount? b depth (.bracket b .opening :: ks) = openCount? b (depth + 1) ks := by
  simp [openCount?]

theorem openCount?_closing (depth : Nat) :
    openCount? b (depth + 1) (.bracket b .closing :: ks) = openCount? b depth ks := by
  simp [openCount?]

theorem openCount?_other (opening : k ≠ .bracket b .opening) (closing : k ≠ .bracket b .closing)
    (depth : Nat) : openCount? b depth (k :: ks) = openCount? b depth ks := by
  simp [openCount?, opening, closing]

theorem openCount?_append (b : Bracket) (depth : Nat) (ks rest : List TokenKind) :
    openCount? b depth (ks ++ rest) = (openCount? b depth ks).bind (openCount? b · rest) := by
  fun_induction openCount? b depth ks with
  | case1 => rfl
  | _ => simp_all [openCount?]

theorem Paired.openCount? (paired : Paired ks) (round : b ≠ .scope) (depth : Nat) :
    openCount? b depth ks = some depth := by
  induction paired generalizing depth with
  | nil => rfl
  | @plain k rest other _ ih =>
      have apart (side : Side) : k ≠ .bracket b side := by
        rintro rfl
        cases b with
        | scope => exact absurd rfl round
        | _ => cases other
      rw [openCount?_other (apart .opening) (apart .closing), ih]
  | @group b' inner rest _ _ _ inside ih =>
      by_cases same : b' = b
      · subst same
        rw [openCount?_opening, openCount?_append, inside, Option.bind_some, openCount?_closing, ih]
      · have other (side side' : Side) : TokenKind.bracket b' side ≠ .bracket b side' := by
          simp [same]
        rw [openCount?_other (other _ _) (other _ _), openCount?_append, inside, Option.bind_some,
          openCount?_other (other _ _) (other _ _), ih]

theorem Line.splitClose?_append_of_count {depth rest : Nat}
    (count : openCount? b depth (cells.map fun c => c.token.kind) = some rest) (more : List Cell) :
    Line.splitClose? b depth (cells ++ more) =
      (Line.splitClose? b rest more).map fun (inner, close, after) =>
        (cells ++ inner, close, after) := by
  induction cells generalizing depth with
  | nil =>
      cases count
      simp
  | cons c cells ih =>
      rw [List.map_cons] at count
      simp only [List.cons_append, Line.splitClose?]
      by_cases opening : c.token.kind = .bracket b .opening
      · rw [opening, openCount?_opening] at count
        rw [if_pos opening, ih count, Option.map_map]
        rfl
      · by_cases closing : c.token.kind = .bracket b .closing
        · cases depth with
          | zero => simp [openCount?, closing] at count
          | succ depth =>
              rw [closing, openCount?_closing] at count
              rw [if_neg opening, if_pos closing]
              simp only [ih count, Option.map_map]
              rfl
        · rw [openCount?_other opening closing] at count
          rw [if_neg opening, if_neg closing, ih count, Option.map_map]
          rfl

theorem Line.splitClose?_partner {d : Cell} (paired : Paired (cells.map fun c => c.token.kind))
    (round : b ≠ .scope) (kind : d.token.kind = .bracket b .closing) (more : List Cell) :
    Line.splitClose? b 0 (cells ++ d :: more) = some (cells, d, more) := by
  have here : Line.splitClose? b 0 (d :: more) = some ([], d, more) := by
    simp [Line.splitClose?, kind]
  rw [Line.splitClose?_append_of_count (paired.openCount? round 0), here]
  simp

end Count

theorem Paired.exists_partner {b : Bracket} {before after : List TokenKind}
    (paired : Paired (before ++ .bracket b .opening :: after)) (round : b ≠ .scope) :
    ∃ inner rest, after = inner ++ .bracket b .closing :: rest ∧ Paired inner := by
  have closed := paired.openParens? []
  rw [openParens?_append] at closed
  obtain ⟨s, -, closed⟩ := Option.bind_eq_some_iff.1 closed
  rw [openParens?_opening round] at closed
  cases completes_of_openParens? closed with
  | close _ inside _ => exact ⟨_, _, rfl, inside⟩

/-!
## Open parentheses
-/

namespace Draft

theorem Turns.followsParens {s s' : Draft} {ks : List TokenKind} (turns : Turns s s' ks) :
    Follows (List.map Prod.fst) openParens? s.parens s'.parens ks := by
  have unchanged {k : TokenKind} (other : k.isParen = false) :
      Follows (List.map Prod.fst) openParens? s.parens s.parens [k] :=
    follows_same (fun _ => openParens?_plain other) _
  cases turns with
  | nothing _ parens =>
      rw [parens]
      exact follows_same (fun _ => rfl) _
  | @plain k other _ parens =>
      rw [parens]
      refine unchanged ?_
      cases k with
      | bracket b side => exact absurd rfl (other b side)
      | _ => rfl
  | opensBlock _ parens =>
      rw [parens]
      exact unchanged rfl
  | closesBlock _ parens =>
      rw [parens]
      exact unchanged rfl
  | opensParen round _ parens =>
      rw [parens]
      exact follows_push (fun _ => openParens?_opening round) _
  | @closesParen b _ round _ parens =>
      have unopened : openParens? [] [.bracket b .closing] = none := by
        cases b with
        | scope => exact absurd rfl round
        | _ => rfl
      rw [parens]
      exact follows_pop unopened (fun _ => openParens?_closing round) _

def parenStack : Stack (Bracket × Nat) (List Bracket) where
  entries := Draft.parens
  shape := List.map Prod.fst
  turn := openParens?
  nil_of_shape _ empty := List.map_eq_nil_iff.1 empty
  turn_nil _ := rfl
  turn_append s ks rest := openParens?_append s ks rest
  follows := Turns.followsParens

end Draft

/-!
## Lines of loaded programs
-/

namespace Program

variable {source : String} {ls : List (Lexeme × Nat)} {p : Program}

theorem paired_of_load (scanned : lexemes source = .ok ls) (loaded : load source = .ok p)
    (outside : Lexeme.labelsOutside 0 ls = true) : ∀ line ∈ p.lines, Paired line.kinds := by
  obtain ⟨ls', s, scanned', read, parens, -, lines, -⟩ := exists_reading loaded
  cases scanned.symm.trans scanned'
  rcases Draft.whole_empty.addAll Draft.matched_empty (Lexeme.scannable_of_mem scanned) read with
    ⟨whole, -⟩ | ⟨-, inside⟩
  · rw [lines]
    exact (whole.closeLine parens).lines
  · exact absurd (outside.symm.trans inside) nofun

theorem Reads.pairs_in_line {s : Draft} (reads : p.Reads ls s) {line : Line}
    (member : line ∈ p.lines)
    {b : Bracket} (round : b ≠ .scope) {before inner rest : List Cell} {c d : Cell}
    (cells : line.cells = before ++ c :: (inner ++ d :: rest))
    (opening : c.token.kind = .bracket b .opening) (closing : d.token.kind = .bracket b .closing)
    (paired : Paired (inner.map fun c => c.token.kind)) :
    Draft.Pairs Draft.parens ls c.token.id d.token.id := by
  obtain ⟨front, back, lines⟩ := List.append_of_mem member
  have tokens : s.tokens = (front.flatMap Line.tokens ++ before.map Cell.token) ++
      c.token :: (inner.map Cell.token ++
        d.token :: (rest.map Cell.token ++ back.flatMap Line.tokens)) := by
    rw [reads.tokens, Program.tokens, lines]
    simp [Line.tokens, cells]
  refine Draft.parenStack.pairs reads.scannable reads.read tokens (x := [b]) ?_ ?_ ?_ ?_
  · intro entries shape
    obtain ⟨e, rfl, -⟩ := List.map_eq_singleton_iff.1 shape
    exact ⟨e, rfl⟩
  · rw [opening]
    exact openParens?_opening round
  · rw [closing]
    exact openParens?_closing round
  · rw [List.map_map]
    exact paired.openParens? []

/-- The parenthesis `c` of a line ends at `d`, for a run as for the reader, and what stands in
between is balanced in each kind of parentheses. -/
structure Encloses (line : Line) (ls : List (Lexeme × Nat)) (b : Bracket) (c d : Cell)
    (inner : List Cell) : Prop where
  kind : d.token.kind = .bracket b .closing
  closerOf : line.closerOf c.ref = .ok (some d.ref)
  pairs : Draft.Pairs Draft.parens ls c.token.id d.token.id
  paired : Paired (inner.map fun c => c.token.kind)
  balanced (b' : Bracket) : b' ≠ .scope → openCount? b' 0 (inner.map fun c => c.token.kind) = some 0

/-- In the lines of a script without labels between parentheses, the scan for the end of a
parenthesis finds the one at which the reader closed it. -/
theorem closerOf_pairs (scanned : lexemes source = .ok ls) (loaded : load source = .ok p)
    (outside : Lexeme.labelsOutside 0 ls = true) {line : Line} (member : line ∈ p.lines)
    {b : Bracket} (round : b ≠ .scope) {before after : List Cell} {c : Cell}
    (cells : line.cells = before ++ c :: after)
    (opening : c.token.kind = .bracket b .opening) :
    ∃ inner d rest, after = inner ++ d :: rest ∧ Encloses line ls b c d inner := by
  have whole := paired_of_load scanned loaded outside line member
  rw [Line.kinds, cells, List.map_append, List.map_cons, opening] at whole
  obtain ⟨ks, later, split, paired⟩ := whole.exists_partner round
  obtain ⟨inner, more, rfl, rfl, tail⟩ := List.map_eq_append_iff.1 split
  obtain ⟨d, rest, rfl, closing, -⟩ := List.map_eq_cons_iff.1 tail
  obtain ⟨ls', s, scanned', reads⟩ := exists_reads_of_load loaded
  cases scanned.symm.trans scanned'
  refine ⟨inner, d, rest, rfl, closing, ?_,
    reads.pairs_in_line member round cells opening closing paired,
    paired, fun b' round' => paired.openCount? round' 0⟩
  rw [Line.closerOf, Line.focus_eq (distinct_of_load loaded line member) before cells]
  simp [opening, Line.enclosed_eq opening, Line.splitClose?_partner paired round closing rest]

/-- The call of `max` has a group and another call in it. -/
theorem closerOf_pairs_multilineScript :
    ∃ ls line c d inner, lexemes multilineScript = .ok ls ∧
      (Machine.programOf multilineScript).lines[0]? = some line ∧ c.token.id = 3 ∧ d.token.id = 16 ∧
      Encloses line ls .call c d inner := by
  let line := (Machine.programOf multilineScript).lines.headD {}
  let c : Cell := { ref := 3, token := .new (.bracket .call .opening) 3 1 }
  have checked : (lexemes multilineScript).toOption.isSome = true ∧
      Lexeme.labelsOutside 0 ((lexemes multilineScript).toOption.getD []) = true ∧
      (Program.load multilineScript).toOption.isSome = true ∧
      (Machine.programOf multilineScript).lines[0]? = some line ∧
      line.cells = line.cells.take 3 ++ c :: line.cells.drop 4 ∧ line.closerOf 3 = .ok (some 16) ∧
      ∀ d ∈ line.cells, d.ref = 16 → d.token.id = 16 := by
    decide +kernel
  obtain ⟨scans, outside, loads, first, cells, ends, ids⟩ := checked
  have scanned := Except.eq_ok_getD scans []
  have loaded : Program.load multilineScript = .ok (Machine.programOf multilineScript) :=
    Except.eq_ok_getD loads _
  have round : Bracket.call ≠ .scope := nofun
  obtain ⟨inner, d, rest, after, encloses⟩ :=
    closerOf_pairs scanned loaded outside (List.mem_of_getElem? first) round cells rfl
  have last : d.ref = 16 := by
    have same := ends.symm.trans encloses.closerOf
    exact (Option.some.inj (Except.ok.inj same)).symm
  exact ⟨_, line, c, d, inner, scanned, first, rfl,
    ids d (by rw [cells, after]; simp) last, encloses⟩

end Program

end LineScript

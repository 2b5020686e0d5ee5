import LineScript.Proofs.Loading.Reload
import LineScript.Proofs.Safety.Priorities

/-!
# Parentheses of a statement

The parentheses of a statement come in pairs of one kind that enclose each other or stand side by
side (`Paired`).  A line break or `;` between them does not end the statement, and a brace is
refused there.  A label ends the statement also between parentheses, and the reader goes on as if it
had not: the parentheses of a script are in order, and those of its lines are not.  So all lines of
a loaded program are paired if no label stands between parentheses, and only then
(`Program.paired_iff`).
-/

namespace LineScript

/-- Parentheses in pairs of one kind, with paired tokens between them. -/
inductive Paired : List TokenKind → Prop where
  | nil : Paired []
  | plain {k : TokenKind} {rest : List TokenKind} (other : k.isParen = false)
      (paired : Paired rest) :
      Paired (k :: rest)
  | group {b : Bracket} {inner rest : List TokenKind} (round : b ≠ .scope) (inside : Paired inner)
      (paired : Paired rest) :
      Paired (.bracket b .opening :: (inner ++ .bracket b .closing :: rest))

def openParens? : List Bracket → List TokenKind → Option (List Bracket)
  | s, [] => some s
  | s, .bracket .scope _ :: rest => openParens? s rest
  | s, .bracket b .opening :: rest => openParens? (b :: s) rest
  | [], .bracket _ .closing :: _ => none
  | c :: s, .bracket b .closing :: rest => if c = b then openParens? s rest else none
  | s, _ :: rest => openParens? s rest

section Stack

variable {b : Bracket} {s : List Bracket} {k : TokenKind} {ks rest : List TokenKind}

theorem openParens?_plain (other : k.isParen = false) :
    openParens? s (k :: rest) = openParens? s rest := by
  cases k with
  | bracket b side =>
      cases b with
      | scope => cases side <;> simp [openParens?]
      | _ => cases other
  | _ => simp [openParens?]

theorem openParens?_opening (round : b ≠ .scope) :
    openParens? s (.bracket b .opening :: rest) = openParens? (b :: s) rest := by
  cases b with
  | scope => exact absurd rfl round
  | _ => simp [openParens?]

theorem openParens?_closing (round : b ≠ .scope) :
    openParens? (b :: s) (.bracket b .closing :: rest) = openParens? s rest := by
  cases b with
  | scope => exact absurd rfl round
  | _ => simp [openParens?]

theorem openParens?_append (s : List Bracket) (ks rest : List TokenKind) :
    openParens? s (ks ++ rest) = (openParens? s ks).bind (openParens? · rest) := by
  fun_induction openParens? s ks with
  | case1 => rfl
  | _ => simp_all [openParens?]

theorem Paired.openParens? (paired : Paired ks) (s : List Bracket) :
    openParens? s ks = some s := by
  induction paired generalizing s with
  | nil => rfl
  | plain other _ ih => rw [openParens?_plain other, ih]
  | group round _ _ inside ih =>
      rw [openParens?_opening round, openParens?_append, inside, Option.bind_some,
        openParens?_closing round, ih]

theorem Paired.append {ks rest : List TokenKind} (first : Paired ks) (second : Paired rest) :
    Paired (ks ++ rest) := by
  induction first with
  | nil => exact second
  | plain other _ ih => exact .plain other ih
  | @group b inner rest' round inside _ _ ih =>
      rw [List.cons_append, List.append_assoc, List.cons_append]
      exact .group round inside ih

inductive Completes : List Bracket → List TokenKind → Prop where
  | done {ks : List TokenKind} (paired : Paired ks) : Completes [] ks
  | close {b : Bracket} {s : List Bracket} {inner rest : List TokenKind} (round : b ≠ .scope)
      (inside : Paired inner) (later : Completes s rest) :
      Completes (b :: s) (inner ++ .bracket b .closing :: rest)

theorem Completes.prepend (front : Paired ks) (completes : Completes s rest) :
    Completes s (ks ++ rest) := by
  cases completes with
  | done paired => exact .done (front.append paired)
  | close round inside later =>
      rw [← List.append_assoc]
      exact .close round (front.append inside) later

theorem completes_of_openParens? (closed : openParens? s ks = some []) : Completes s ks := by
  induction ks generalizing s with
  | nil =>
      cases closed
      exact .done .nil
  | cons k ks ih =>
      cases paren : k.isParen with
      | false =>
          rw [openParens?_plain paren] at closed
          exact (ih closed).prepend (.plain paren .nil)
      | true =>
          obtain ⟨b, side, rfl, round⟩ : ∃ b side, k = .bracket b side ∧ b ≠ .scope := by
            cases k with
            | bracket b side =>
                refine ⟨b, side, rfl, ?_⟩
                rintro rfl
                cases paren
            | _ => cases paren
          cases side with
          | opening =>
              rw [openParens?_opening round] at closed
              cases ih closed with
              | close _ inside later =>
                  have group := (Paired.group round inside .nil)
                  have whole := later.prepend group
                  simpa using whole
          | closing =>
              cases s with
              | nil => cases b <;> simp [openParens?] at closed round
              | cons c s =>
                  obtain rfl : c = b := by
                    cases b with
                    | scope => exact absurd rfl round
                    | _ =>
                        simp only [openParens?, Option.ite_none_right_eq_some] at closed
                        exact closed.1
                  rw [openParens?_closing round] at closed
                  exact .close round .nil (ih closed)

theorem paired_iff_openParens? : Paired ks ↔ openParens? [] ks = some [] := by
  constructor
  · exact fun paired => paired.openParens? []
  · intro closed
    cases completes_of_openParens? closed with
    | done paired => exact paired

instance (ks : List TokenKind) : Decidable (Paired ks) :=
  decidable_of_iff (openParens? [] ks = some []) paired_iff_openParens?.symm

end Stack

/-!
## Reading
-/

namespace Draft

variable {s s' : Draft} {n : Nat} {l : Lexeme}

structure Whole (s : Draft) : Prop where
  lines : ∀ line ∈ s.lines, Paired line.kinds
  current : openParens? [] s.current.kinds = some (s.parens.map Prod.fst)

def Torn (s : Draft) : Prop :=
  ∃ line ∈ s.lines, ¬ Paired line.kinds

theorem whole_empty : ({} : Draft).Whole :=
  ⟨nofun, rfl⟩

theorem kinds_put (s : Draft) (k : TokenKind) (n : Nat) :
    (s.put k n).current.kinds = s.current.kinds ++ [k] :=
  Line.kinds_append _ _

theorem Whole.put (whole : s.Whole) {k : TokenKind} (parens : List (Bracket × Nat))
    (turns : openParens? (s.parens.map Prod.fst) [k] = some (parens.map Prod.fst)) (n : Nat) :
    ((s.withParens parens).put k n).Whole where
  lines := whole.lines
  current := by
    have read : openParens? [] (s.withParens parens).current.kinds = some (s.parens.map Prod.fst) :=
      whole.current
    rw [kinds_put, openParens?_append, read]
    exact turns

theorem Whole.putPlain (whole : s.Whole) {k : TokenKind} (other : k.isParen = false) (n : Nat) :
    (s.put k n).Whole := by
  refine whole.put s.parens ?_ n
  rw [openParens?_plain other]
  rfl

theorem Whole.withBraces (whole : s.Whole) (braces : List Nat) : (s.withBraces braces).Whole :=
  ⟨whole.lines, whole.current⟩

theorem Whole.mark (whole : s.Whole) (name : String) : (s.mark name).Whole :=
  ⟨whole.lines, whole.current⟩

theorem Whole.closeLine (whole : s.Whole) (outside : s.parens = []) : s.closeLine.Whole := by
  unfold Draft.closeLine
  split
  · exact ⟨whole.lines, whole.current⟩
  · constructor
    · refine List.forall_mem_append.2 ⟨whole.lines, List.forall_mem_singleton.2 ?_⟩
      have read := whole.current
      rw [outside] at read
      exact paired_iff_openParens?.2 read
    · rw [outside]
      rfl

theorem Whole.torn (whole : s.Whole) (inside : s.parens ≠ []) : s.closeLine.Torn := by
  have read := whole.current
  have filled : s.current.isEmpty = false := by
    cases empty : s.current.cells with
    | nil =>
        rw [Line.kinds, empty] at read
        exact absurd (List.map_eq_nil_iff.1 (Option.some.inj read).symm) inside
    | cons c cs => simp [Line.isEmpty, empty]
  refine ⟨s.current, ?_, ?_⟩
  · simp [Draft.closeLine, filled]
  · intro paired
    rw [paired_iff_openParens?.1 paired] at read
    exact inside (List.map_eq_nil_iff.1 (Option.some.inj read).symm)

theorem lines_closeLine (s : Draft) : s.lines <+: s.closeLine.lines := by
  unfold Draft.closeLine
  split
  · exact List.prefix_rfl
  · exact List.prefix_append _ _

theorem Adds.lines (adds : s.Adds n l s') : s.lines <+: s'.lines := by
  cases adds with
  | ends _ _ => exact s.lines_closeLine
  | skips _ => exact List.prefix_rfl
  | marks name => exact s.lines_closeLine
  | opensBlock _ => exact lines_closeLine ((s.withBraces (n :: s.braces)).put .openBrace n)
  | @closesBlock _ rest _ _ =>
      exact (lines_closeLine (s.withBraces rest)).trans
        (lines_closeLine ((s.withBraces rest).closeLine.put .closeBrace n))
  | opensParen => exact List.prefix_rfl
  | closesParen _ _ => exact List.prefix_rfl
  | puts _ _ _ _ _ => exact List.prefix_rfl

theorem Torn.mono (torn : s.Torn) (more : s.lines <+: s'.lines) : s'.Torn := by
  obtain ⟨line, member, broken⟩ := torn
  exact ⟨line, more.subset member, broken⟩

theorem Adds.whole (adds : s.Adds n l s') (label : ∀ name, l = .label name → s.parens = [])
    (whole : s.Whole) : s'.Whole := by
  cases adds with
  | ends outside _ => exact whole.closeLine outside
  | skips _ => exact whole
  | marks name => exact (whole.closeLine (label name rfl)).mark name
  | opensBlock outside =>
      exact ((whole.withBraces _).putPlain (k := .openBrace) rfl n).closeLine outside
  | @closesBlock _ rest outside _ =>
      have closed := (whole.withBraces rest).closeLine outside
      refine (closed.putPlain (k := .closeBrace) rfl n).closeLine ?_
      rw [parens_put, parens_closeLine]
      exact outside
  | opensParen =>
      refine whole.put _ ?_ n
      rw [openParens?_opening s.parenHere_ne_scope]
      rfl
  | @closesParen b i parens open_ round =>
      refine whole.put _ ?_ n
      rw [open_, List.map_cons, openParens?_closing round]
      rfl
  | @puts k _ _ plain _ _ _ =>
      refine whole.putPlain ?_ n
      cases k with
      | bracket b side => exact absurd rfl (plain b side)
      | _ => rfl

theorem Adds.torn {name : String} (adds : s.Adds n (.label name) s') (inside : s.parens ≠ [])
    (whole : s.Whole) : s'.Torn := by
  cases adds with
  | ends _ separator => rcases separator with h | h <;> cases h
  | marks _ => exact whole.torn inside
  | @puts k _ lexeme plain _ _ _ =>
      cases k with
      | literal v => cases v <;> cases lexeme
      | operator op => cases op <;> cases lexeme
      | bracket b side => exact absurd rfl (plain b side)
      | _ => cases lexeme

theorem Whole.addAll {ls : List (Lexeme × Nat)} (whole : s.Whole) (matched : s.Matched)
    (scannable : ∀ l ∈ ls, l.1.Scannable) (added : s.addAll ls = .ok s') :
    s'.Whole ∧ Lexeme.labelsOutside s.parens.length ls = true ∨
      s'.Torn ∧ Lexeme.labelsOutside s.parens.length ls = false := by
  have all := matched.addAll_keeps (P := fun d rest =>
    d.Whole ∧ (Lexeme.labelsOutside s.parens.length ls = true ↔
        Lexeme.labelsOutside d.parens.length rest = true) ∨
      d.Torn ∧ Lexeme.labelsOutside s.parens.length ls = false) scannable ?_
    (.inl ⟨whole, .rfl⟩) added
  · rcases all with ⟨whole, same⟩ | torn
    · exact .inl ⟨whole, same.2 (by simp [Lexeme.labelsOutside])⟩
    · exact .inr torn
  · rintro d d' l n rest adds (⟨whole, same⟩ | ⟨torn, inside⟩)
    · rw [labelsOutside_cons adds] at same
      by_cases label : ∀ name, l = .label name → d.parens = []
      · exact .inl ⟨adds.whole label whole, same.trans (and_iff_right label)⟩
      · have inside : Lexeme.labelsOutside s.parens.length ls = false := by
          rw [← Bool.not_eq_true, same]
          exact fun both => label both.1
        obtain ⟨name, label⟩ := Classical.not_forall.1 label
        obtain ⟨rfl, open_⟩ := Classical.not_imp.1 label
        exact .inr ⟨adds.torn open_ whole, inside⟩
    · exact .inr ⟨torn.mono adds.lines, inside⟩

end Draft

/-- The parentheses of every statement of a loaded program come in pairs, unless a label stands
between parentheses of the script. -/
theorem Program.paired_iff {source : String} {ls : List (Lexeme × Nat)} {p : Program}
    (scanned : lexemes source = .ok ls) (loaded : Program.load source = .ok p) :
    (∀ line ∈ p.lines, Paired line.kinds) ↔ Lexeme.labelsOutside 0 ls = true := by
  obtain ⟨ls', s, scanned', read, parens, -, lines, -⟩ := exists_reading loaded
  cases scanned.symm.trans scanned'
  have scannable := Lexeme.scannable_of_mem scanned
  rcases Draft.whole_empty.addAll Draft.matched_empty scannable read with
    ⟨whole, outside⟩ | ⟨torn, inside⟩
  · rw [lines]
    exact ⟨fun _ => outside, fun _ => (whole.closeLine parens).lines⟩
  · obtain ⟨line, member, broken⟩ := torn.mono s.lines_closeLine
    constructor
    · intro paired
      exact absurd (paired line (lines ▸ member)) broken
    · intro outside
      exact absurd (outside.symm.trans inside) nofun

def multilineScript : String :=
  "@top x = max((1 + 2)\n, min(3;\n4))\n@loop for (int i = 0; i < (2); i += 1) \x7b\n\x7d"

theorem Program.paired_multilineScript :
    ∃ ls, lexemes multilineScript = .ok ls ∧ Lexeme.labelsOutside 0 ls = true ∧
      Program.load multilineScript = .ok (Machine.programOf multilineScript) ∧
      (Machine.programOf multilineScript).lines.length = 3 ∧
      ∀ line ∈ (Machine.programOf multilineScript).lines, Paired line.kinds := by
  have checked : (lexemes multilineScript).toOption.isSome = true ∧
      Lexeme.labelsOutside 0 ((lexemes multilineScript).toOption.getD []) = true ∧
      (Program.load multilineScript).toOption.isSome = true ∧
      (Machine.programOf multilineScript).lines.length = 3 := by
    decide +kernel
  obtain ⟨scans, outside, loads, size⟩ := checked
  have scanned := Except.eq_ok_getD scans []
  have loaded : Program.load multilineScript = .ok (Machine.programOf multilineScript) :=
    Except.eq_ok_getD loads _
  exact ⟨_, scanned, outside, loaded, size, (Program.paired_iff scanned loaded).2 outside⟩

def tornScript : String :=
  "x = (1 +\n@a\n2)\n"

/-- The script is loaded as two statements, of which one opens a parenthesis that the
other closes. -/
theorem Program.torn_tornScript :
    Program.load tornScript = .ok (Machine.programOf tornScript) ∧
      (Machine.programOf tornScript).text = "   0: x = ( 1 +\n   1: 2 )\n" ∧
      ∀ line ∈ (Machine.programOf tornScript).lines, ¬ Paired line.kinds := by
  have checked : (Program.load tornScript).toOption.isSome = true ∧
      (Machine.programOf tornScript).text = "   0: x = ( 1 +\n   1: 2 )\n" ∧
      ∀ line ∈ (Machine.programOf tornScript).lines, ¬ Paired line.kinds := by
    decide +kernel
  exact ⟨Except.eq_ok_getD checked.1 _, checked.2⟩

end LineScript

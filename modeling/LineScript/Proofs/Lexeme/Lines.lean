import LineScript.Proofs.Lexeme.LongestMatch

/-!
# The lines of lexemes

A script is cut into pieces, each of which is what the patterns take where the one before it ends
(`Cut`).  The lexemes of a script are those of its pieces, and the line of each is one more than the
line breaks before it; where the script is given up, the same holds of the text that is to blame
(`lexemes_located`).

A line break is a lexeme of its own and stands in no other one, only in block comments.  So the line
that scanning counts up in two places, at line breaks and at comments, is counted by the texts of
the pieces (`count_newline_of_reading`).
-/

namespace LineScript.Lexeme

open Number Pattern

/-!
## Line breaks
-/

section Newlines

variable {text : List Char}

theorem count_newline_of_class {p : Char → Bool} (all : ∀ c ∈ text, p c = true)
    (newline : p '\n' = false) : text.count '\n' = 0 := by
  refine List.count_eq_zero.2 fun member => ?_
  rw [all _ member] at newline
  cases newline

theorem count_newline_of_word (mem : text ∈ word) : text.count '\n' = 0 := by
  obtain ⟨c, cs, start, all, rfl⟩ := mem_name.1 mem
  exact count_newline_of_class (List.forall_mem_cons.2 ⟨isWordChar_of_isWordStart start, all⟩) rfl

theorem count_newline_of_digits (mem : text ∈ several isDigit) : text.count '\n' = 0 :=
  count_newline_of_class (mem_several.1 mem).2 rfl

theorem count_newline_of_body (mem : text ∈ stringBody) : text.count '\n' = 0 :=
  List.count_eq_zero.2 (not_mem_stringBody mem)

theorem eq_some_of_ofOption {l? : Option Lexeme} {l : Lexeme}
    (reads : Reading.ofOption l? = .lexeme l) : l? = some l := by
  cases l? with
  | none => cases reads
  | some l' =>
      cases reads
      rfl

/-- A text that becomes a lexeme has as many line breaks as the lexeme is counted for. -/
theorem count_newline_of_reading {p : Pattern} {l : Lexeme} (mem : text ∈ p.language)
    (reads : p.reading text = .lexeme l) : text.count '\n' = l.newlines := by
  cases p with
  | reserved =>
      have all : ∀ entry ∈ reserved, entry.2.newlines = 0 := by decide
      rw [count_newline_of_word (mem_name_of_reserved mem)]
      exact (all _ (mem_of_lookup (eq_some_of_ofOption reads))).symm
  | pair =>
      obtain ⟨c, d, -, rfl⟩ := mem_pair.1 mem
      have all : ∀ entry ∈ pairs,
          [entry.1.1, entry.1.2].count '\n' = entry.2.newlines := by decide
      exact all _ (mem_of_lookup (eq_some_of_ofOption reads))
  | single =>
      obtain ⟨c, -, rfl⟩ := mem_single.1 mem
      have all : ∀ entry ∈ singles, [entry.1].count '\n' = entry.2.newlines := by decide
      exact all _ (mem_of_lookup (eq_some_of_ofOption reads))
  | float =>
      obtain ⟨whole, digits, fraction, digits', rfl⟩ := mem_float.1 mem
      cases reads
      rw [List.count_append, List.count_cons, count_newline_of_digits digits,
        count_newline_of_digits digits']
      rfl
  | integer =>
      obtain ⟨n, -, rfl⟩ := Option.map_eq_some_iff.1 (eq_some_of_ofOption reads)
      exact count_newline_of_digits mem
  | string =>
      obtain ⟨s, -, rfl⟩ := Option.map_eq_some_iff.1 (eq_some_of_ofOption reads)
      obtain ⟨body, inside, rfl⟩ := mem_string.1 mem
      rw [List.count_cons, List.count_append, count_newline_of_body inside]
      rfl
  | template =>
      obtain ⟨s, -, rfl⟩ := Option.map_eq_some_iff.1 (eq_some_of_ofOption reads)
      obtain ⟨body, inside, rfl⟩ := mem_template.1 mem
      rw [List.count_cons, List.count_cons, List.count_append, count_newline_of_body inside]
      rfl
  | name =>
      cases reads
      exact count_newline_of_word mem
  | label =>
      cases reads
      obtain ⟨c, cs, start, all, rfl⟩ := mem_label.1 mem
      rw [List.count_cons, count_newline_of_word (mem_name.2 ⟨c, cs, start, all, rfl⟩)]
      rfl
  | lineComment => cases reads
  | blockComment => cases reads
  | blank => cases reads

end Newlines

/-!
## Pieces
-/

structure Piece where
  pattern : Pattern
  text : List Char

def Piece.reading (piece : Piece) : Reading :=
  piece.pattern.reading piece.text

def joined (pieces : List Piece) : List Char :=
  pieces.flatMap Piece.text

structure Piece.Heads (piece : Piece) (cs : List Char) : Prop where
  takes : piece.pattern.Takes piece.text cs
  fits : piece.reading ≠ .refused

/-- A text is cut into pieces and a rest. -/
inductive Cut : List Char → List Piece → List Char → Prop
  | nothing (rest : List Char) : Cut rest [] rest
  | piece {piece : Piece} {pieces : List Piece} {cs rest : List Char}
      (heads : piece.Heads (piece.text ++ cs)) (others : Cut cs pieces rest) :
      Cut (piece.text ++ cs) (piece :: pieces) rest

/-- The lexemes of pieces that follow a text, each with its line: one more than the line breaks
before the first character of the lexeme. -/
def located (before : List Char) : List Piece → List (Lexeme × Nat)
  | [] => []
  | piece :: pieces =>
      match piece.reading with
      | .lexeme l => (l, 1 + before.count '\n') :: located (before ++ piece.text) pieces
      | _ => located (before ++ piece.text) pieces

theorem joined_cons (piece : Piece) (pieces : List Piece) :
    joined (piece :: pieces) = piece.text ++ joined pieces :=
  List.flatMap_cons

theorem located_cons (before : List Char) (piece : Piece) (pieces : List Piece) :
    located before (piece :: pieces) =
      located before [piece] ++ located (before ++ piece.text) pieces := by
  simp only [located]
  cases piece.reading <;> rfl

/-!
## One piece
-/

section Unique

variable {text text' cs : List Char} {piece piece' : Piece}

theorem Piece.Heads.unique (heads : piece.Heads cs) (heads' : piece'.Heads cs) :
    piece = piece' := by
  obtain ⟨pattern, text⟩ := heads.takes.unique heads'.takes
  cases piece
  cases piece'
  simp_all

theorem Unmatched.unique (unmatched : Unmatched text cs) (unmatched' : Unmatched text' cs) :
    text = text' := by
  have short {t t' : List Char} (first : Unmatched t cs) (second : Unmatched t' cs) :
      t.length ≤ t'.length := by
    rcases first.begun with viable | alone
    · exact second.farthest t first.split viable
    · exact alone ▸ List.length_pos_iff.2 second.filled
  exact (List.prefix_of_prefix_length_le unmatched.split unmatched'.split
    (short unmatched unmatched')).eq_of_length
      (Nat.le_antisymm (short unmatched unmatched') (short unmatched' unmatched))

theorem Stuck.unique (stuck : Stuck text cs) (stuck' : Stuck text' cs) : text = text' := by
  rcases stuck with ⟨p, takes, -⟩ | unmatched <;> rcases stuck' with ⟨p', takes', -⟩ | unmatched'
  · exact (takes.unique takes').2
  · exact absurd takes.matched (unmatched'.nothing p text takes.split)
  · exact absurd takes'.matched (unmatched.nothing p' text' takes'.split)
  · exact unmatched.unique unmatched'

theorem Stuck.not_heads (stuck : Stuck text cs) : ¬piece.Heads cs := by
  rintro ⟨takes, fits⟩
  rcases stuck with ⟨p, takes', refused⟩ | unmatched
  · obtain ⟨rfl, rfl⟩ := takes.unique takes'
    exact fits refused
  · exact unmatched.nothing _ _ takes.split takes.matched

end Unique

theorem lexFrom_blanks {blanks : List Char} (all : ∀ c ∈ blanks, isSpace c = true) (n : Nat)
    (rest : List Char) : lexFrom n (blanks ++ rest) = lexFrom n rest := by
  induction blanks with
  | nil => rfl
  | cons c blanks ih =>
      rw [List.forall_mem_cons] at all
      rw [List.cons_append, lexFrom_space all.1, ih all.2]

/-- At every place a piece is read, or the script is given up. -/
theorem lexFrom_cases (c : Char) (cs : List Char) :
    (∃ (piece : Piece) (rest : List Char), c :: cs = piece.text ++ rest ∧ piece.Heads (c :: cs) ∧
      ∀ before, lexFrom (1 + before.count '\n') (c :: cs) =
        (lexFrom (1 + (before ++ piece.text).count '\n') rest).map (located before [piece] ++ ·)) ∨
    ∃ text, Stuck text (c :: cs) ∧ ∀ n, lexFrom n (c :: cs) =
      .error { cause := .unrecognized (String.ofList text), line := n } := by
  cases space : isSpace c with
  | true =>
      refine .inl ⟨⟨.blank, (c :: cs).takeWhile isSpace⟩, (c :: cs).dropWhile isSpace,
        List.takeWhile_append_dropWhile.symm, ⟨takes_blank space cs, nofun⟩, fun before => ?_⟩
      have all : ∀ d ∈ (c :: cs).takeWhile isSpace, isSpace d = true := takeWhile_class _
      have skipped := lexFrom_blanks all (1 + before.count '\n') ((c :: cs).dropWhile isSpace)
      rw [List.takeWhile_append_dropWhile] at skipped
      rw [skipped, List.count_append, count_newline_of_class all rfl, Nat.add_zero]
      cases lexFrom (1 + before.count '\n') ((c :: cs).dropWhile isSpace) <;> rfl
  | false =>
      have agrees := agrees_scan space cs
      cases scanned : scan c cs with
      | lexeme l rest =>
          rw [scanned] at agrees
          obtain ⟨p, text, split, takes, reads⟩ := agrees
          refine .inl ⟨⟨p, text⟩, rest, split,
            ⟨takes, by simp [Piece.reading, reads]⟩, fun before => ?_⟩
          rw [lexFrom_lexeme scanned, ← count_newline_of_reading takes.matched reads,
            List.count_append, Nat.add_assoc]
          simp only [located, Piece.reading, reads, List.singleton_append]
      | skip lines rest =>
          rw [scanned] at agrees
          obtain ⟨p, text, split, takes, reads, rfl⟩ := agrees
          refine .inl ⟨⟨p, text⟩, rest, split,
            ⟨takes, by simp [Piece.reading, reads]⟩, fun before => ?_⟩
          rw [lexFrom_skip scanned, List.count_append, Nat.add_assoc]
          simp only [located, Piece.reading, reads, List.nil_append]
          cases lexFrom (1 + (before.count '\n' + text.count '\n')) rest <;> rfl
      | refused text =>
          rw [scanned] at agrees
          exact .inr ⟨text, agrees, lexFrom_refused scanned⟩

section Pieces

variable {cs rest text : List Char} {piece : Piece} {pieces : List Piece}

theorem Piece.Heads.exists_cons (heads : piece.Heads cs) : ∃ c more, piece.text = c :: more := by
  obtain ⟨c, more, same, -⟩ := exists_initial heads.takes.matched
  exact ⟨c, more, same⟩

theorem lexFrom_piece (heads : piece.Heads (piece.text ++ cs)) (before : List Char) :
    lexFrom (1 + before.count '\n') (piece.text ++ cs) =
      (lexFrom (1 + (before ++ piece.text).count '\n') cs).map (located before [piece] ++ ·) := by
  obtain ⟨c, more, start⟩ := heads.exists_cons
  have start : piece.text ++ cs = c :: (more ++ cs) := by rw [start, List.cons_append]
  rcases lexFrom_cases c (more ++ cs) with ⟨piece', rest, split, heads', read⟩ | ⟨text, stuck, -⟩
  · rw [← start] at split heads' read
    obtain rfl := heads.unique heads'
    obtain rfl := List.append_cancel_left split
    exact read before
  · exact absurd (start ▸ heads) stuck.not_heads

theorem lexFrom_stuck (stuck : Stuck text cs) (n : Nat) :
    lexFrom n cs = .error { cause := .unrecognized (String.ofList text), line := n } := by
  cases cs with
  | nil =>
      rcases stuck with ⟨p, takes, -⟩ | unmatched
      · obtain ⟨c, more, rfl, -⟩ := exists_initial takes.matched
        exact absurd takes.split.length_le (by simp)
      · exact absurd (List.prefix_nil.1 unmatched.split) unmatched.filled
  | cons c cs =>
      rcases lexFrom_cases c cs with ⟨piece, rest, -, heads, -⟩ | ⟨text', stuck', stops⟩
      · exact absurd heads stuck.not_heads
      · rw [stuck.unique stuck']
        exact stops n

/-!
## All pieces
-/

theorem lexFrom_cut (cut : Cut cs pieces rest) (before : List Char) :
    lexFrom (1 + before.count '\n') cs =
      (lexFrom (1 + (before ++ joined pieces).count '\n') rest).map
        (located before pieces ++ ·) := by
  induction cut generalizing before with
  | nothing rest =>
      rw [joined, List.flatMap_nil, List.append_nil]
      cases lexFrom (1 + before.count '\n') rest <;> rfl
  | @piece piece pieces cs rest heads others ih =>
      rw [lexFrom_piece heads, ih, joined_cons, ← List.append_assoc,
        located_cons before piece pieces]
      generalize lexFrom _ rest = last
      cases last with
      | error e => rfl
      | ok ls => exact congrArg Except.ok (List.append_assoc _ _ _).symm

theorem exists_cut (cs : List Char) :
    ∃ pieces rest, Cut cs pieces rest ∧ (rest = [] ∨ ∃ text, Stuck text rest) := by
  induction length : cs.length using Nat.strongRecOn generalizing cs with
  | ind n ih =>
  cases cs with
  | nil => exact ⟨[], [], .nothing [], .inl rfl⟩
  | cons c cs =>
      rcases lexFrom_cases c cs with ⟨piece, rest, split, heads, -⟩ | ⟨text, stuck, -⟩
      · obtain ⟨d, more, start⟩ := heads.exists_cons
        have shorter : rest.length < n := by
          rw [← length, split, start]
          simp only [List.length_append, List.length_cons]
          omega
        obtain ⟨pieces, last, cut, ends⟩ := ih _ shorter rest rfl
        rw [split] at heads ⊢
        exact ⟨piece :: pieces, last, .piece heads cut, ends⟩
      · exact ⟨[], c :: cs, .nothing _, .inr ⟨text, stuck⟩⟩

end Pieces

/-- The lexemes of a script are those of its pieces, on the lines on which they begin.  If a text is
left that is to blame, it is reported with the line on which it begins. -/
theorem lexemes_located (source : String) :
    (∀ ls, lexemes source = .ok ls ↔
      ∃ pieces, Cut source.toList pieces [] ∧ ls = located [] pieces) ∧
    ∀ e, lexemes source = .error e ↔
      ∃ pieces rest text, Cut source.toList pieces rest ∧ Stuck text rest ∧
        e =
          { cause := .unrecognized (String.ofList text)
            line := 1 + (joined pieces).count '\n' } := by
  have read {pieces rest} (cut : Cut source.toList pieces rest) : lexemes source =
      (lexFrom (1 + (joined pieces).count '\n') rest).map (located [] pieces ++ ·) :=
    lexFrom_cut cut []
  have whole {pieces} (cut : Cut source.toList pieces []) :
      lexemes source = .ok (located [] pieces) := by
    rw [read cut, lexFrom]
    exact congrArg Except.ok (List.append_nil _)
  have stops {pieces rest text} (cut : Cut source.toList pieces rest) (stuck : Stuck text rest) :
      lexemes source = .error
        { cause := .unrecognized (String.ofList text)
          line := 1 + (joined pieces).count '\n' } := by
    rw [read cut, lexFrom_stuck stuck]
    rfl
  obtain ⟨pieces, rest, cut, ends⟩ := exists_cut source.toList
  refine ⟨fun ls => ⟨fun lexed => ?_, ?_⟩, fun e => ⟨fun failed => ?_, ?_⟩⟩
  · rcases ends with rfl | ⟨text, stuck⟩
    · cases (whole cut).symm.trans lexed
      exact ⟨pieces, cut, rfl⟩
    · cases (stops cut stuck).symm.trans lexed
  · rintro ⟨pieces, cut, rfl⟩
    exact whole cut
  · rcases ends with rfl | ⟨text, stuck⟩
    · cases (whole cut).symm.trans failed
    · cases (stops cut stuck).symm.trans failed
      exact ⟨pieces, rest, text, cut, stuck, rfl⟩
  · rintro ⟨pieces, rest, text, cut, stuck, rfl⟩
    exact stops cut stuck

end LineScript.Lexeme

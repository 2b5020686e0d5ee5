import LineScript.Proofs.Loading.Reload
import LineScript.Proofs.Operator.Integers
import LineScript.Proofs.Printing

/-!
# Integers as they are written

The text of an integer is its decimal digits, with a `-` before those of a negative one.  In a
script that is an operator before the literal of the opposite integer, which has to fit in 64 bits
by itself.  So every integer but the least one can be assigned by its text
(`runScript_assignedText_iff`).
-/

namespace LineScript

open Number Lexeme

/-- The script that assigns an integer by its text. -/
def assignedText (n : Int64) : String :=
  "x = " ++ (Value.int n).text

/-!
## Reading the text
-/

theorem toList_toString_neg {n : Int} (negative : n < 0) :
    (toString n).toList = '-' :: Nat.toDigits 10 (-n).toNat := by
  obtain ⟨m, rfl⟩ := Int.eq_negSucc_of_lt_zero negative
  have text : toString (Int.negSucc m) = "-" ++ Nat.repr (m + 1) := rfl
  rw [text, String.toList_append, Nat.toList_repr]
  rfl

theorem lexFrom_minus {c : Char} (digit : isDigit c = true) (cs : List Char) (n : Nat) :
    lexFrom n ('-' :: c :: cs) = lexFrom n ('-' :: ' ' :: c :: cs) := by
  have single : scan '-' (c :: cs) = .lexeme (.operator .sub) (c :: cs) := by
    have other : c ≠ '=' := by
      rintro rfl
      cases digit
    have noPair : pairs.lookup ('-', c) = none := by
      rw [List.lookup_eq_none_iff]
      simp [pairs, other]
    have symbol : scan '-' (c :: cs) = scanSymbol '-' (c :: cs) := rfl
    rw [symbol, scanSymbol, noPair]
    rfl
  have apart : scan '-' (' ' :: c :: cs) = .lexeme (.operator .sub) (' ' :: c :: cs) := rfl
  rw [lexFrom_lexeme single, lexFrom_lexeme apart, lexFrom_blank]

structure WrittenAs (n : Int64) (e : Expr) : Prop where
  legal : e.Legal
  lexemes : ∀ line, lexFrom line (Value.int n).text.toList = .ok (lexed line e.kinds)
  value : ∀ look, e.eval look = .ok (.int n)

variable {n k : Int64}

theorem writtenAs_literal (nonneg : 0 ≤ n.toInt) : WrittenAs n (.literal (.int n)) where
  legal := ⟨trivial, Nat.zero_le _, nonneg⟩
  lexemes := by
    intro line
    have spelled : ∀ l ∈ (Expr.literal (.int n)).kinds, l.lexeme.Spelled := by
      intro l member
      obtain rfl := List.mem_singleton.1 member
      exact nonneg
    have text : (Value.int n).text.toList = (lineText (Expr.literal (.int n)).kinds).dropLast :=
      (toList_toString_int nonneg).trans List.dropLast_concat.symm
    rw [text]
    exact lexFrom_words spelled line
  value := fun _ => rfl

theorem writtenAs_negated (negative : n.toInt < 0) (opposite : k.toInt = -n.toInt) :
    WrittenAs n (.before .negate (.literal (.int k))) where
  legal := by
    refine ⟨⟨rfl, trivial, .inl rfl⟩, Nat.zero_le _, ?_⟩
    show 0 ≤ k.toInt
    omega
  lexemes := by
    intro line
    have spelled : ∀ l ∈ (Expr.before .negate (.literal (.int k))).kinds, l.lexeme.Spelled := by
      simp only [Expr.kinds, List.mem_cons, List.mem_nil_iff, or_false]
      rintro l (rfl | rfl)
      · show Operator.sub ≠ .negate
        decide
      · show 0 ≤ k.toInt
        omega
    cases digits : Nat.toDigits 10 k.toInt.toNat with
    | nil => exact absurd digits Nat.toDigits_ne_nil
    | cons c cs =>
        have digit : isDigit c = true := isDigit_of_mem_toDigits (digits ▸ List.mem_cons_self)
        have text : (Value.int n).text.toList = '-' :: c :: cs := by
          rw [← digits, opposite]
          exact toList_toString_neg negative
        have words : lineText (Expr.before .negate (.literal (.int k))).kinds =
            ('-' :: ' ' :: c :: cs) ++ ['\n'] := by
          have spelling : (TokenKind.literal (.int k)).lexeme.spelling = c :: cs := digits
          simp only [Expr.kinds, lineText, spelling]
          rfl
        have read := lexFrom_words spelled line
        rw [words, List.dropLast_concat] at read
        rw [text, lexFrom_minus digit, read]
  value := by
    intro look
    have exact : narrow? (-k.toInt) = some n := narrow?_eq_some_iff.2 (by omega)
    simp [Expr.eval, Operator.applyBefore, Operator.negation, exact]

theorem exists_writtenAs (other : n ≠ Int64.minValue) : ∃ e, WrittenAs n e := by
  by_cases nonneg : 0 ≤ n.toInt
  case pos => exact ⟨_, writtenAs_literal nonneg⟩
  case neg =>
    have fits : Fits (-n.toInt) := by
      have bounds := fits_toInt n
      have least : n.toInt ≠ Int64.minValue.toInt := mt Int64.toInt_inj.1 other
      rw [Int64.toInt_minValue] at least
      unfold Fits at bounds ⊢
      omega
    obtain ⟨k, -, opposite⟩ := exists_narrow? fits
    exact ⟨_, writtenAs_negated (Int.not_le.1 nonneg) opposite⟩

/-!
## Running the script
-/

section
variable {a : Assignment} {source : String}

theorem exists_load_of_lexemes (legal : a.Legal)
    (scanned : lexemes source = .ok (lexed 1 a.kinds)) :
    ∃ p, Program.load source = .ok p ∧ p.kinds = [a.kinds] ∧ p.Loaded := by
  obtain ⟨t, read, extended, braces⟩ :=
    Draft.addAll_line (s := {}) rfl rfl rfl a.kinds_ne_nil (clean_assign legal) 1
  obtain ⟨p, made, same⟩ := Program.ofLexemes_of_newline read extended.parens braces
  obtain ⟨lines, whole, kinds, loaded⟩ := extended.lines
  rw [whole, List.nil_append] at same
  refine ⟨p, by simp [Program.load, scanned, made], by rw [Program.kinds, same, kinds], ?_⟩
  rw [Program.Loaded, same]
  exact loaded

theorem lexemes_assignedText {e : Expr} (written : WrittenAs n e) :
    lexemes (assignedText n) = .ok (lexed 1 (Assignment.set "x" e).kinds) := by
  have blank (more : List Char) : Parted (' ' :: more) := by
    rintro c ⟨⟩
    exact .inl rfl
  have text : (assignedText n).toList = (Lexeme.name "x").spelling ++
      ' ' :: ((Lexeme.operator .assign).spelling ++ ' ' :: (Value.int n).text.toList) := by
    rw [assignedText, String.toList_append]
    rfl
  have name : (Lexeme.name "x").Spelled := (by decide : isName "x" = true)
  have assign : (Lexeme.operator .assign).Spelled := (by decide : Operator.assign ≠ .negate)
  rw [lexemes, text, lexFrom_spelling name (blank _), lexFrom_blank,
    lexFrom_spelling assign (blank _), lexFrom_blank, written.lexemes]
  rfl

end

theorem runScript_assignedText (other : n ≠ Int64.minValue) (properties : List (String × String)) :
    ∃ fuel m, runScript fuel (assignedText n) { properties } = .ok (m, none) ∧ m.finished = true ∧
      m.symbols.bindings = [("x", { value := .int n, type := .int, origin := .declaration })] ∧
      m.sink.text = "" := by
  obtain ⟨e, written⟩ := exists_writtenAs other
  have legal : (Assignment.set "x" e).Legal :=
    ⟨(by decide : isName "x" = true), written.legal, trivial⟩
  obtain ⟨p, load, kinds, loaded⟩ := exists_load_of_lexemes legal (lexemes_assignedText written)
  have legal' : (assigning "x" e).Legal := ⟨legal, trivial⟩
  have meets := Body.meets_of_loaded legal' loaded kinds properties 0
  have done : (assigning "x" e).exec 0 {} = .done .normal
      { symbols :=
          { bindings := [("x", { value := .int n, type := .int, origin := .declaration })] } } := by
    simp [assigning, Body.exec, Statement.exec, Assignment.exec, Assignment.value,
      Assignment.assigned,
      Symbols.contains, Symbols.get?, Symbols.add, Result.ofExcept, Result.andThen,
        written.value, Value.type]
  rw [done] at meets
  obtain ⟨k, m, reached, ends⟩ := meets
  obtain ⟨finishes, shows⟩ := Body.finishes_of_ends reached ends
  obtain ⟨fuel, ran⟩ := exists_runScript_of_finishes load finishes shows.sink
  exact ⟨fuel, m, ran, finishes.1, by rw [shows.symbols], shows.sink.text⟩

theorem load_assignedText_minValue :
    Program.load (assignedText Int64.minValue) =
      .error { cause := .unrecognized "9223372036854775808", line := 1 } := by
  decide +kernel

/-- An integer can be assigned by its text exactly if it is not the least one, the digits of which
are refused. -/
theorem runScript_assignedText_iff (n : Int64) (properties : List (String × String)) :
    ((∃ fuel m, runScript fuel (assignedText n) { properties } = .ok (m, none) ∧ m.finished = true ∧
        m.symbols.bindings = [("x", { value := .int n, type := .int, origin := .declaration })] ∧
        m.sink.text = "") ↔ n ≠ Int64.minValue) ∧
      (Program.load (assignedText n) =
          .error { cause := .unrecognized "9223372036854775808", line := 1 } ↔
            n = Int64.minValue) := by
  by_cases least : n = Int64.minValue
  · rw [least]
    refine ⟨iff_of_false ?_ (not_not_intro rfl), iff_of_true load_assignedText_minValue rfl⟩
    rintro ⟨fuel, m, ran, -⟩
    simp [runScript, load_assignedText_minValue] at ran
  · obtain ⟨fuel, m, ran, run⟩ := runScript_assignedText least properties
    refine ⟨iff_of_true ⟨fuel, m, ran, run⟩ least, iff_of_false (fun refused => ?_) least⟩
    simp [runScript, refused] at ran

/-- The least integer cannot be assigned by its text. -/
theorem runScript_assignedText_least :
    assignedText Int64.minValue = "x = -9223372036854775808" ∧
      Program.load (assignedText Int64.minValue) =
        .error { cause := .unrecognized "9223372036854775808", line := 1 } ∧
      ¬ ∃ fuel m, runScript fuel (assignedText Int64.minValue) {} = .ok (m, none) := by
  refine ⟨by decide +kernel, load_assignedText_minValue, ?_⟩
  rintro ⟨fuel, m, ran⟩
  simp [runScript, load_assignedText_minValue] at ran

end LineScript

import LineScript.Proofs.Loading.Brackets

/-!
# Which scripts are accepted

A sequence of lexemes is a program if its labels are distinct and its brackets a word of the
grammar.  The reader decides this from left to right: it stops at the first lexeme after which no
continuation would be accepted, and of the brackets that are still open it blames the innermost one
(`Program.accepted_or_refused`).
-/

namespace LineScript

open Lexeme Opening

/-!
## Verdicts
-/

/-- What a sequence of lexemes needs to be a program. -/
structure Acceptable (ls : List (Lexeme × Nat)) : Prop where
  labels : (Lexeme.labels ls).Nodup
  nested : Nested (brackets ls)

def Extendable (ls : List (Lexeme × Nat)) : Prop :=
  ∃ more, Acceptable (ls ++ more)

def InnermostParen (ls : List (Lexeme × Nat)) (n : Nat) : Prop :=
  ∃ front back, ls = front ++ (.openParen, n) :: back ∧ Grouped (brackets back)

def InnermostBrace (ls : List (Lexeme × Nat)) (n : Nat) : Prop :=
  ∃ front back, ls = front ++ (.openBrace, n) :: back ∧ Nested (brackets back)

inductive Blames (before : List (Lexeme × Nat)) (n : Nat) : Lexeme → LoadError → Prop where
  | paren (outside : ∀ m, ¬ InnermostParen before m) :
      Blames before n .closeParen { cause := .neverOpened ")", line := n }
  | brace (outside : ∀ m, ¬ InnermostParen before m) (level : ∀ m, ¬ InnermostBrace before m) :
      Blames before n .closeBrace { cause := .neverOpened "\x7d", line := n }
  /-- A brace between parentheses.  The parenthesis is blamed, at its own line. -/
  | between {l : Lexeme} {m : Nat} (brace : l = .openBrace ∨ l = .closeBrace)
      (inside : InnermostParen before m) :
      Blames before n l { cause := .neverClosed "(", line := m }
  | label {tag : String} (defined : tag ∈ Lexeme.labels before) :
      Blames before n (.label tag) { cause := .labelTwice tag, line := n }

/-- Why a sequence of lexemes is no program: the first lexeme that no continuation can mend, or else
the innermost bracket that is open at the end. -/
inductive Refused (ls : List (Lexeme × Nat)) : LoadError → Prop where
  | within {before after : List (Lexeme × Nat)} {l : Lexeme} {n : Nat} {e : LoadError}
      (split : ls = before ++ (l, n) :: after) (viable : Extendable before)
      (stuck : ¬ Extendable (before ++ [(l, n)])) (blames : Blames before n l e) : Refused ls e
  | paren {m : Nat} (viable : Extendable ls) (inside : InnermostParen ls m) :
      Refused ls { cause := .neverClosed "(", line := m }
  | brace {m : Nat} (viable : Extendable ls) (outside : ∀ k, ¬ InnermostParen ls k)
      (inside : InnermostBrace ls m) : Refused ls { cause := .neverClosed "\x7b", line := m }

section Verdicts

variable {ls : List (Lexeme × Nat)} {l : Lexeme} {n m : Nat} {o : Opening} {e : LoadError}

theorem acceptable_iff :
    Acceptable ls ↔ ∃ o, ({} : Opening).readAll ls = .ok o ∧ o.finish = .ok () := by
  constructor
  · intro acceptable
    exact ⟨_, acceptable.nested.skips rfl acceptable.labels rfl, rfl⟩
  · rintro ⟨o, done, closed⟩
    obtain ⟨parens, braces⟩ := finish_eq_ok_iff.1 closed
    obtain ⟨names, distinct⟩ := names_readAll done .nil
    have traces := traces_of_readAll done
    rw [parens, braces] at traces
    rw [names] at distinct
    refine ⟨distinct, ?_⟩
    cases traces with
    | level nested => exact nested

theorem extendable_iff : Extendable ls ↔ ∃ o, ({} : Opening).readAll ls = .ok o := by
  constructor
  · rintro ⟨more, acceptable⟩
    obtain ⟨o, done, -⟩ := acceptable_iff.1 acceptable
    rw [readAll_append] at done
    cases first : ({} : Opening).readAll ls with
    | error e => simp [first] at done
    | ok o' => exact ⟨o', rfl⟩
  · rintro ⟨o, done⟩
    obtain ⟨parens, closed⟩ := o.exists_closingParens
    obtain ⟨braces, level⟩ := Opening.exists_closingBraces { o with parens := [] } rfl
    refine ⟨parens ++ braces, acceptable_iff.2 ⟨{ o with parens := [], braces := [] }, ?_, rfl⟩⟩
    rw [readAll_append, done, Except.bind_ok, readAll_append, closed, Except.bind_ok, level]

theorem readAll_split {front back : List (Lexeme × Nat)}
    (done : ({} : Opening).readAll (front ++ (l, n) :: back) = .ok o) :
    ∃ d d', ({} : Opening).readAll front = .ok d ∧ d.Takes n l d' ∧ d'.readAll back = .ok o ∧
      d'.Fresh back := by
  have distinct := (names_readAll done .nil).2
  rw [readAll_append] at done
  cases first : ({} : Opening).readAll front with
  | error e => simp [first] at done
  | ok d =>
      rw [first, Except.bind_ok, readAll_cons] at done
      cases step : d.read l n with
      | error e => simp [step] at done
      | ok d' =>
          rw [step, Except.bind_ok] at done
          have takes := takes_of_read step
          have before := (takes.names (names_readAll first .nil).2).2
          rw [(names_readAll done before).1] at distinct
          exact ⟨d, d', rfl, takes, done, distinct⟩

theorem innermostParen_iff (done : ({} : Opening).readAll ls = .ok o) :
    InnermostParen ls m ↔ o.parens.head? = some m := by
  constructor
  · rintro ⟨front, back, rfl, grouped⟩
    obtain ⟨d, d', -, takes, done, fresh⟩ := readAll_split done
    rw [grouped.skips rfl fresh] at done
    cases done
    cases takes with
    | openParen => rfl
    | plain plain _ => cases plain
  · intro head
    have traces := traces_of_readAll done
    obtain ⟨parens, same⟩ := List.head?_eq_some_iff.1 head
    rw [same] at traces
    cases traces with
    | paren outer grouped => exact ⟨_, _, rfl, grouped⟩

theorem innermostBrace_iff (done : ({} : Opening).readAll ls = .ok o) (outside : o.parens = []) :
    InnermostBrace ls m ↔ o.braces.head? = some m := by
  constructor
  · rintro ⟨front, back, rfl, nested⟩
    obtain ⟨d, d', -, takes, done, fresh⟩ := readAll_split done
    cases takes with
    | openBrace level =>
        rw [nested.skips rfl fresh level] at done
        cases done
        rfl
    | plain plain _ => cases plain
  · intro head
    have traces := traces_of_readAll done
    obtain ⟨braces, same⟩ := List.head?_eq_some_iff.1 head
    rw [outside, same] at traces
    cases traces with
    | brace outer nested => exact ⟨_, _, rfl, nested⟩

theorem not_innermostParen_iff (done : ({} : Opening).readAll ls = .ok o) :
    (∀ m, ¬ InnermostParen ls m) ↔ o.parens = [] := by
  simp only [innermostParen_iff done]
  cases o.parens <;> simp

theorem not_innermostBrace_iff (done : ({} : Opening).readAll ls = .ok o)
    (outside : o.parens = []) :
    (∀ m, ¬ InnermostBrace ls m) ↔ o.braces = [] := by
  simp only [innermostBrace_iff done outside]
  cases o.braces <;> simp

/-- A lexeme is refused for what is wrong with it. -/
theorem read_eq_error_iff (done : ({} : Opening).readAll ls = .ok o) :
    o.read l n = .error e ↔ Blames ls n l e := by
  have names : o.names = labels ls := (names_readAll done .nil).1
  constructor
  · intro failed
    cases l with
    | closeParen =>
        simp only [Opening.read] at failed
        cases parens : o.parens with
        | nil =>
            simp only [parens, Except.error.injEq] at failed
            exact failed ▸ .paren ((not_innermostParen_iff done).2 parens)
        | cons m rest => simp [parens] at failed
    | openBrace =>
        simp only [Opening.read] at failed
        cases parens : o.parens with
        | nil => simp [parens] at failed
        | cons m rest =>
            simp only [parens, Except.error.injEq] at failed
            exact failed ▸ .between (.inl rfl) ((innermostParen_iff done).2 (by rw [parens]; rfl))
    | closeBrace =>
        simp only [Opening.read] at failed
        cases parens : o.parens with
        | nil =>
            cases braces : o.braces with
            | nil =>
                simp only [parens, braces, Except.error.injEq] at failed
                exact failed ▸ .brace ((not_innermostParen_iff done).2 parens)
                  ((not_innermostBrace_iff done parens).2 braces)
            | cons m rest => simp [parens, braces] at failed
        | cons m rest =>
            simp only [parens, Except.error.injEq] at failed
            exact failed ▸ .between (.inr rfl) ((innermostParen_iff done).2 (by rw [parens]; rfl))
    | label tag =>
        simp only [Opening.read] at failed
        split at failed
        · rename_i defined
          cases failed
          exact .label (names ▸ defined)
        · cases failed
    | _ => cases failed
  · intro blames
    cases blames with
    | paren outside => simp [Opening.read, (not_innermostParen_iff done).1 outside]
    | brace outside level =>
        have parens := (not_innermostParen_iff done).1 outside
        simp [Opening.read, parens, (not_innermostBrace_iff done parens).1 level]
    | between brace inside =>
        obtain ⟨parens, same⟩ := List.head?_eq_some_iff.1 ((innermostParen_iff done).1 inside)
        rcases brace with rfl | rfl
        · simp [Opening.read, same]
        · simp [Opening.read, same]
    | label defined => simp [Opening.read, names, defined]

theorem exists_failure (failed : o.readAll ls = .error e) :
    ∃ front l n back o', ls = front ++ (l, n) :: back ∧ o.readAll front = .ok o' ∧
      o'.read l n = .error e := by
  induction ls generalizing o with
  | nil => cases failed
  | cons first rest ih =>
      obtain ⟨l, n⟩ := first
      rw [readAll_cons] at failed
      cases step : o.read l n with
      | error e' =>
          rw [step, Except.bind_error] at failed
          exact ⟨[], l, n, rest, o, rfl, rfl, step.trans failed⟩
      | ok o₁ =>
          rw [step, Except.bind_ok] at failed
          obtain ⟨front, l', n', back, o', rfl, done, refused⟩ := ih failed
          refine ⟨(l, n) :: front, l', n', back, o', rfl, ?_, refused⟩
          rw [readAll_cons, step, Except.bind_ok, done]

theorem finish_eq_error_iff (done : ({} : Opening).readAll ls = .ok o) :
    o.finish = .error e ↔
      (∃ m, InnermostParen ls m ∧ e = { cause := .neverClosed "(", line := m }) ∨
        (∀ k, ¬ InnermostParen ls k) ∧
          ∃ m, InnermostBrace ls m ∧ e = { cause := .neverClosed "\x7b", line := m } := by
  rw [not_innermostParen_iff done]
  simp only [innermostParen_iff done]
  cases parens : o.parens with
  | cons m rest => simp [Opening.finish, parens, eq_comm]
  | nil =>
      simp only [innermostBrace_iff done parens]
      cases braces : o.braces with
      | nil => simp [Opening.finish, parens, braces]
      | cons m rest => simp [Opening.finish, parens, braces, eq_comm]

/-- The error of a reading is that of the first lexeme which cannot be mended, or of what stays
open. -/
theorem refused_iff :
    Refused ls e ↔ (({} : Opening).readAll ls).bind Opening.finish = .error e := by
  constructor
  · intro refused
    cases refused with
    | @within front back l n _ split viable _ blames =>
        obtain ⟨o, done⟩ := extendable_iff.1 viable
        have failed := (read_eq_error_iff done).2 blames
        rw [split, readAll_append, done, Except.bind_ok, readAll_cons, failed]
        rfl
    | @paren m viable inside =>
        obtain ⟨o, done⟩ := extendable_iff.1 viable
        rw [done, Except.bind_ok]
        exact (finish_eq_error_iff done).2 (.inl ⟨m, inside, rfl⟩)
    | @brace m viable outside inside =>
        obtain ⟨o, done⟩ := extendable_iff.1 viable
        rw [done, Except.bind_ok]
        exact (finish_eq_error_iff done).2 (.inr ⟨outside, m, inside, rfl⟩)
  · intro failed
    cases all : ({} : Opening).readAll ls with
    | error e' =>
        rw [all, Except.bind_error] at failed
        cases failed
        obtain ⟨front, l, n, back, o, split, done, refused⟩ := exists_failure all
        refine .within split (extendable_iff.2 ⟨o, done⟩) ?_ ((read_eq_error_iff done).1 refused)
        intro viable
        obtain ⟨o', done'⟩ := extendable_iff.1 viable
        rw [readAll_append, done, Except.bind_ok, readAll_cons, refused] at done'
        cases done'
    | ok o =>
        rw [all, Except.bind_ok] at failed
        have viable := extendable_iff.2 ⟨o, all⟩
        rcases (finish_eq_error_iff all).1 failed with ⟨m, inside, rfl⟩ | ⟨outside, m, inside, rfl⟩
        · exact .paren viable inside
        · exact .brace viable outside inside

end Verdicts

/-- A sequence of lexemes is a program if and only if its labels are distinct and its brackets a
word of the grammar.  Otherwise the error is that of the first lexeme after which nothing more could
be accepted, or, where there is none, that of the innermost bracket that is open at the end: of a
parenthesis if one is open, else of a brace. -/
theorem Program.accepted_or_refused (ls : List (Lexeme × Nat)) :
    ((∃ p, Program.ofLexemes ls = .ok p) ↔ Acceptable ls) ∧
      ∀ e, Program.ofLexemes ls = .error e ↔ Refused ls e := by
  have verdict := Program.map_ofLexemes ls
  constructor
  · rw [acceptable_iff]
    cases made : Program.ofLexemes ls with
    | error e =>
        rw [made, Except.map_error_eq] at verdict
        constructor
        · rintro ⟨p, same⟩
          cases same
        · rintro ⟨o, done, closed⟩
          rw [done, Except.bind_ok, closed] at verdict
          cases verdict
    | ok p =>
        rw [made, Except.map_ok_eq] at verdict
        refine ⟨fun _ => ?_, fun _ => ⟨p, rfl⟩⟩
        cases all : ({} : Opening).readAll ls with
        | error e =>
            rw [all] at verdict
            cases verdict
        | ok o =>
            rw [all, Except.bind_ok] at verdict
            exact ⟨o, rfl, verdict.symm⟩
  · intro e
    rw [refused_iff, ← verdict]
    cases Program.ofLexemes ls with
    | error e' => simp
    | ok p => simp

-- A `}` between parentheses, with no block around them: the parenthesis is blamed, at its own line.
example : Program.ofLexemes [(.name "f", 1), (.openParen, 1), (.newline, 1), (.closeBrace, 2)] =
    .error { cause := .neverClosed "(", line := 1 } := by
  rfl

end LineScript

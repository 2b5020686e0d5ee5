import LineScript.Proofs.Loading.Structure

/-!
# The brackets of a script

A script is refused for its brackets and for its labels only.  What the reader looks at for this is
an `Opening`: the brackets that are open and the labels so far.  The brackets of a script should
form a word of the grammar

    D ::= empty | ( P ) D | { D } D        P ::= empty | ( P ) P

(`Lexeme.Nested`, `Lexeme.Grouped`).  A word of the grammar leaves open what was open
(`Lexeme.Nested.skips`), and whatever is open stands before a word of its own (`Opening.Traces`).
-/

namespace LineScript

namespace Lexeme

def isBracket : Lexeme → Bool
  | .openParen | .closeParen | .openBrace | .closeBrace => true
  | _ => false

def label? : Lexeme → Option String
  | .label tag => some tag
  | _ => none

def brackets (ls : List (Lexeme × Nat)) : List Lexeme :=
  (ls.map Prod.fst).filter isBracket

def labels (ls : List (Lexeme × Nat)) : List String :=
  ls.filterMap fun l => l.1.label?

/-- Words of `P ::= empty | ( P ) P`. -/
inductive Grouped : List Lexeme → Prop where
  | nil : Grouped []
  | group {inner rest : List Lexeme} (inside : Grouped inner) (after : Grouped rest) :
      Grouped (.openParen :: (inner ++ .closeParen :: rest))

/-- Words of `D ::= empty | ( P ) D | { D } D`. -/
inductive Nested : List Lexeme → Prop where
  | nil : Nested []
  | group {inner rest : List Lexeme} (inside : Grouped inner) (after : Nested rest) :
      Nested (.openParen :: (inner ++ .closeParen :: rest))
  | block {inner rest : List Lexeme} (inside : Nested inner) (after : Nested rest) :
      Nested (.openBrace :: (inner ++ .closeBrace :: rest))

section Words

variable {v w : List Lexeme}

theorem Grouped.append (first : Grouped v) (second : Grouped w) : Grouped (v ++ w) := by
  induction first with
  | nil => exact second
  | group inside _ _ ih =>
      rw [List.cons_append, List.append_assoc, List.cons_append]
      exact .group inside ih

theorem Nested.append (first : Nested v) (second : Nested w) : Nested (v ++ w) := by
  induction first with
  | nil => exact second
  | group inside _ ih =>
      rw [List.cons_append, List.append_assoc, List.cons_append]
      exact .group inside ih
  | block inside _ _ ih =>
      rw [List.cons_append, List.append_assoc, List.cons_append]
      exact .block inside ih

theorem Grouped.nested (grouped : Grouped w) : Nested w := by
  induction grouped with
  | nil => exact .nil
  | group inside _ _ ih => exact .group inside ih

end Words

section Sequences

variable {ls ls' : List (Lexeme × Nat)} {l : Lexeme} {w : List Lexeme}

@[simp] theorem brackets_append : brackets (ls ++ ls') = brackets ls ++ brackets ls' := by
  simp [brackets]

@[simp] theorem labels_append : labels (ls ++ ls') = labels ls ++ labels ls' := by
  simp [labels]

theorem brackets_cons_bracket (bracket : l.isBracket = true) (n : Nat) :
    brackets ((l, n) :: ls) = l :: brackets ls := by
  simp [brackets, bracket]

theorem brackets_cons_plain (plain : l.isBracket = false) (n : Nat) :
    brackets ((l, n) :: ls) = brackets ls := by
  simp [brackets, plain]

theorem brackets_group (n m : Nat) :
    brackets ((.openParen, n) :: (ls ++ [(.closeParen, m)])) =
      .openParen :: (brackets ls ++ [.closeParen]) := by
  rw [brackets_cons_bracket rfl, brackets_append]
  rfl

theorem brackets_block (n m : Nat) :
    brackets ((.openBrace, n) :: (ls ++ [(.closeBrace, m)])) =
      .openBrace :: (brackets ls ++ [.closeBrace]) := by
  rw [brackets_cons_bracket rfl, brackets_append]
  rfl

theorem labels_group (n m : Nat) :
    labels ((.openParen, n) :: (ls ++ [(.closeParen, m)])) = labels ls := by
  simp [labels, label?]

theorem labels_block (n m : Nat) :
    labels ((.openBrace, n) :: (ls ++ [(.closeBrace, m)])) = labels ls := by
  simp [labels, label?]

@[simp] theorem brackets_nil : brackets [] = [] := rfl

@[simp] theorem labels_nil : labels [] = [] := rfl

theorem exists_of_brackets {v w : List Lexeme} (same : brackets ls = v ++ l :: w) :
    ∃ front n back, ls = front ++ (l, n) :: back ∧ brackets front = v ∧ brackets back = w := by
  obtain ⟨a, b, split, rfl, rest⟩ := List.filter_eq_append_iff.1 same
  obtain ⟨skipped, b, rfl, none_, -, rfl⟩ := List.filter_eq_cons_iff.1 rest
  obtain ⟨front, more, rfl, rfl, later⟩ := List.map_eq_append_iff.1 split
  obtain ⟨passed, more, rfl, rfl, last⟩ := List.map_eq_append_iff.1 later
  obtain ⟨⟨l, n⟩, back, rfl, rfl, rfl⟩ := List.map_eq_cons_iff.1 last
  refine ⟨front ++ passed, n, back, by simp, ?_, rfl⟩
  have level : brackets passed = [] := List.filter_eq_nil_iff.2 none_
  rw [brackets_append, level, List.append_nil]
  rfl

theorem exists_of_pair {a b : Lexeme} {inner rest : List Lexeme}
    (same : brackets ls = a :: (inner ++ b :: rest)) :
    ∃ front n mid m back, ls = front ++ ((a, n) :: (mid ++ [(b, m)]) ++ back) ∧
      brackets front = [] ∧ brackets mid = inner ∧ brackets back = rest := by
  obtain ⟨front, n, more, rfl, level, same⟩ := exists_of_brackets (v := []) same
  obtain ⟨mid, m, back, rfl, hmid, hback⟩ := exists_of_brackets same
  exact ⟨front, n, mid, m, back, by simp, level, hmid, hback⟩

end Sequences

end Lexeme

open Lexeme

/-!
## What the reader looks at
-/

structure Opening where
  parens : List Nat := []
  braces : List Nat := []
  names : List String := []

namespace Opening

def inParen (o : Opening) (n : Nat) : Opening :=
  { o with parens := n :: o.parens }

def inBrace (o : Opening) (n : Nat) : Opening :=
  { o with braces := n :: o.braces }

def withNames (o : Opening) (names : List String) : Opening :=
  { o with names := o.names ++ names }

def read (o : Opening) (l : Lexeme) (n : Nat) : Except LoadError Opening :=
  match l with
  | .openParen => .ok (o.inParen n)
  | .closeParen =>
      match o.parens with
      | [] => .error { cause := .neverOpened ")", line := n }
      | _ :: parens => .ok { o with parens }
  | .openBrace =>
      match o.parens with
      | m :: _ => .error { cause := .neverClosed "(", line := m }
      | [] => .ok (o.inBrace n)
  | .closeBrace =>
      match o.parens, o.braces with
      | m :: _, _ => .error { cause := .neverClosed "(", line := m }
      | [], [] => .error { cause := .neverOpened "\x7d", line := n }
      | [], _ :: braces => .ok { o with braces }
  | .label tag =>
      if tag ∈ o.names then .error { cause := .labelTwice tag, line := n }
      else .ok (o.withNames [tag])
  | _ => .ok o

def readAll (o : Opening) (ls : List (Lexeme × Nat)) : Except LoadError Opening :=
  ls.foldlM (fun o l => o.read l.1 l.2) o

def finish (o : Opening) : Except LoadError Unit :=
  match o.parens, o.braces with
  | m :: _, _ => .error { cause := .neverClosed "(", line := m }
  | [], m :: _ => .error { cause := .neverClosed "\x7b", line := m }
  | [], [] => .ok ()

end Opening

namespace Draft

def opening (s : Draft) : Opening where
  parens := s.parens.map Prod.snd
  braces := s.braces
  names := s.labels.map Prod.fst

@[simp] theorem braces_put (s : Draft) (k : TokenKind) (n : Nat) :
    (s.put k n).braces = s.braces := rfl

@[simp] theorem labels_put (s : Draft) (k : TokenKind) (n : Nat) :
    (s.put k n).labels = s.labels := rfl

@[simp] theorem opening_closeLine (s : Draft) : s.closeLine.opening = s.opening := by
  simp [opening]

@[simp] theorem opening_put (s : Draft) (k : TokenKind) (n : Nat) :
    (s.put k n).opening = s.opening := rfl

theorem isSome_lookup (s : Draft) (tag : String) :
    (s.labels.lookup tag).isSome = true ↔ tag ∈ s.opening.names := by
  simp [opening, List.lookup_isSome_iff]

/-- A lexeme is refused or changes what is open as `Opening.read` says. -/
theorem opening_add (s : Draft) (l : Lexeme) (n : Nat) :
    (s.add l n).map opening = s.opening.read l n := by
  cases l with
  | newline => by_cases outside : s.parens.isEmpty <;> simp [add, outside, Opening.read]
  | semicolon => by_cases outside : s.parens.isEmpty <;> simp [add, outside, Opening.read]
  | label tag =>
      have known := s.closeLine.isSome_lookup tag
      rw [opening_closeLine] at known
      by_cases defined : tag ∈ s.opening.names
      · simp only [add, known.2 defined, Opening.read, defined, if_true, Except.map_error_eq]
      · have fresh := mt known.1 defined
        simp only [add, fresh, Opening.read, defined, Bool.false_eq_true, if_false]
        simp [opening, Opening.withNames]
  | openBrace =>
      cases parens : s.parens with
      | nil => simp [add, requireNoParen, Opening.read, opening, parens, Opening.inBrace]
      | cons p ps => simp [add, requireNoParen, Opening.read, opening, parens]
  | closeBrace =>
      cases parens : s.parens with
      | nil =>
          cases braces : s.braces with
          | nil =>
              simp [add, requireNoParen, Opening.read, opening, parens, braces, throw, throwThe,
                MonadExceptOf.throw]
          | cons b bs => simp [add, requireNoParen, Opening.read, opening, parens, braces]
      | cons p ps => simp [add, requireNoParen, Opening.read, opening, parens]
  | openParen => simp [add, Opening.read, opening, Opening.inParen]
  | closeParen =>
      cases parens : s.parens with
      | nil => simp [add, Opening.read, opening, parens]
      | cons p ps => simp [add, Opening.read, opening, parens]
  | operator op => cases op <;> simp [add, Opening.read]
  | _ => simp [add, Opening.read]

theorem opening_addAll (s : Draft) (ls : List (Lexeme × Nat)) :
    (s.addAll ls).map opening = s.opening.readAll ls := by
  induction ls generalizing s with
  | nil => rfl
  | cons l ls ih =>
      have first := s.opening_add l.1 l.2
      rw [Opening.readAll, List.foldlM_cons, ← first, addAll]
      cases s.add l.1 l.2 with
      | error e => rfl
      | ok s' => exact ih s'

theorem opening_toProgram (s : Draft) :
    s.toProgram.map (fun _ => ()) = s.opening.finish := by
  unfold toProgram
  split
  all_goals simp [Opening.finish, opening, *]

end Draft

theorem Program.map_ofLexemes (ls : List (Lexeme × Nat)) :
    (Program.ofLexemes ls).map (fun _ => ()) = (({} : Opening).readAll ls).bind Opening.finish := by
  have all := ({} : Draft).opening_addAll ls
  rw [show ({} : Draft).opening = {} from rfl] at all
  rw [Program.ofLexemes, ← all]
  cases ({} : Draft).addAll ls with
  | error e => rfl
  | ok s => exact s.opening_toProgram

namespace Opening

variable {o o' : Opening} {l : Lexeme} {n : Nat} {ls ls' : List (Lexeme × Nat)}

inductive Takes (o : Opening) (n : Nat) : Lexeme → Opening → Prop where
  | openParen : Takes o n .openParen (o.inParen n)
  | closeParen {m : Nat} {parens : List Nat} (open_ : o.parens = m :: parens) :
      Takes o n .closeParen { o with parens }
  | openBrace (outside : o.parens = []) : Takes o n .openBrace (o.inBrace n)
  | closeBrace {m : Nat} {braces : List Nat} (outside : o.parens = [])
      (open_ : o.braces = m :: braces) : Takes o n .closeBrace { o with braces }
  | label {tag : String} (new : tag ∉ o.names) : Takes o n (.label tag) (o.withNames [tag])
  | plain {l : Lexeme} (plain : l.isBracket = false) (unlabelled : l.label? = none) : Takes o n l o

theorem takes_of_read (done : o.read l n = .ok o') : o.Takes n l o' := by
  cases l with
  | openParen =>
      cases done
      exact .openParen
  | closeParen =>
      simp only [read] at done
      cases parens : o.parens with
      | nil => simp [parens] at done
      | cons m rest =>
          simp only [parens, Except.ok.injEq] at done
          exact done ▸ .closeParen parens
  | openBrace =>
      simp only [read] at done
      cases parens : o.parens with
      | cons m rest => simp [parens] at done
      | nil =>
          simp only [parens, Except.ok.injEq] at done
          exact done ▸ .openBrace parens
  | closeBrace =>
      simp only [read] at done
      cases parens : o.parens with
      | cons m rest => simp [parens] at done
      | nil =>
          cases braces : o.braces with
          | nil => simp [parens, braces] at done
          | cons m rest =>
              simp only [parens, braces, Except.ok.injEq] at done
              rw [← done, ← parens]
              exact .closeBrace parens braces
  | label tag =>
      simp only [read] at done
      split at done
      · cases done
      · rename_i new
        cases done
        exact .label new
  | _ =>
      cases done
      exact .plain rfl rfl

/-!
## Words leave open what was open
-/

theorem readAll_append (o : Opening) (ls ls' : List (Lexeme × Nat)) :
    o.readAll (ls ++ ls') = (o.readAll ls).bind fun o => o.readAll ls' :=
  List.foldlM_append

theorem readAll_cons (o : Opening) (l : Lexeme) (n : Nat) (ls : List (Lexeme × Nat)) :
    o.readAll ((l, n) :: ls) = (o.read l n).bind fun o => o.readAll ls :=
  List.foldlM_cons

theorem read_plain (plain : l.isBracket = false) (unlabelled : l.label? = none) :
    o.read l n = .ok o := by
  cases l with
  | openParen | closeParen | openBrace | closeBrace => cases plain
  | label tag => cases unlabelled
  | _ => rfl

theorem withNames_append (o : Opening) (names more : List String) :
    (o.withNames names).withNames more = o.withNames (names ++ more) := by
  simp [withNames]

def Skips (o : Opening) (ls : List (Lexeme × Nat)) : Prop :=
  o.readAll ls = .ok (o.withNames (labels ls))

theorem Skips.append (first : o.Skips ls) (second : (o.withNames (labels ls)).Skips ls') :
    o.Skips (ls ++ ls') := by
  rw [Skips, readAll_append, first, Except.bind_ok, second, withNames_append, labels_append]

def Fresh (o : Opening) (ls : List (Lexeme × Nat)) : Prop :=
  (o.names ++ labels ls).Nodup

theorem Fresh.left (fresh : o.Fresh (ls ++ ls')) : o.Fresh ls := by
  rw [Fresh, labels_append, ← List.append_assoc] at fresh
  exact (List.nodup_append.1 fresh).1

theorem Fresh.right (fresh : o.Fresh (ls ++ ls')) : (o.withNames (labels ls)).Fresh ls' := by
  rwa [Fresh, labels_append, ← List.append_assoc] at fresh

theorem skips_level (level : brackets ls = []) (fresh : o.Fresh ls) : o.Skips ls := by
  induction ls generalizing o with
  | nil => simp [Skips, readAll, withNames]
  | cons first rest ih =>
      obtain ⟨l, n⟩ := first
      have plain : l.isBracket = false := by
        cases bracket : l.isBracket with
        | false => rfl
        | true =>
            rw [brackets_cons_bracket bracket] at level
            cases level
      rw [brackets_cons_plain plain] at level
      have one : o.Skips [(l, n)] := by
        cases label : l.label? with
        | none => simp [Skips, readAll, read_plain plain label, withNames, labels, label]
        | some tag =>
            obtain rfl : l = .label tag := by
              cases l <;> cases label
              rfl
            have new : tag ∉ o.names := by
              intro old
              have apart := (List.nodup_append.1 fresh).2.2 tag old tag
              simp [labels, Lexeme.label?] at apart
            simp [Skips, readAll, read, new, withNames, labels, Lexeme.label?]
      exact one.append (ih level (@Fresh.right _ [(l, n)] _ fresh))

theorem Skips.group {m : Nat} (inside : (o.inParen n).Skips ls) :
    o.Skips ((.openParen, n) :: (ls ++ [(.closeParen, m)])) := by
  rw [Skips, readAll_cons, read, Except.bind_ok, readAll_append, inside, labels_group]
  simp [readAll, read, withNames, inParen]

theorem Skips.block {m : Nat} (outside : o.parens = []) (inside : (o.inBrace n).Skips ls) :
    o.Skips ((.openBrace, n) :: (ls ++ [(.closeBrace, m)])) := by
  have opened : o.read .openBrace n = .ok (o.inBrace n) := by
    simp [read, outside]
  rw [Skips, readAll_cons, opened, Except.bind_ok, readAll_append, inside, labels_block]
  simp [readAll, read, withNames, inBrace, outside]

end Opening

open Opening

theorem Lexeme.Grouped.skips {w : List Lexeme} (grouped : Grouped w) {o : Opening}
    {ls : List (Lexeme × Nat)} (same : brackets ls = w) (fresh : o.Fresh ls) : o.Skips ls := by
  induction grouped generalizing o ls with
  | nil => exact skips_level same fresh
  | group _ _ ihInner ihRest =>
      obtain ⟨front, n, mid, m, back, rfl, level, hmid, hback⟩ := exists_of_pair same
      have inside := fresh.right.left
      rw [Fresh, labels_group] at inside
      have middle := Skips.group (m := m)
        (ihInner (o := (o.withNames (labels front)).inParen n) hmid inside)
      exact (skips_level level fresh.left).append (middle.append (ihRest hback fresh.right.right))

theorem Lexeme.Nested.skips {w : List Lexeme} (nested : Nested w) {o : Opening}
    {ls : List (Lexeme × Nat)} (same : brackets ls = w) (fresh : o.Fresh ls)
    (outside : o.parens = []) : o.Skips ls := by
  induction nested generalizing o ls with
  | nil => exact skips_level same fresh
  | group grouped _ ihRest =>
      obtain ⟨front, n, mid, m, back, rfl, level, hmid, hback⟩ := exists_of_pair same
      have inside := fresh.right.left
      rw [Fresh, labels_group] at inside
      have middle := Skips.group (m := m)
        (grouped.skips (o := (o.withNames (labels front)).inParen n) hmid inside)
      exact (skips_level level fresh.left).append
        (middle.append (ihRest hback fresh.right.right outside))
  | block _ _ ihInner ihRest =>
      obtain ⟨front, n, mid, m, back, rfl, level, hmid, hback⟩ := exists_of_pair same
      have inside := fresh.right.left
      rw [Fresh, labels_block] at inside
      have middle := Skips.block (o := o.withNames (labels front)) (m := m) outside
        (ihInner (o := (o.withNames (labels front)).inBrace n) hmid inside outside)
      exact (skips_level level fresh.left).append
        (middle.append (ihRest hback fresh.right.right outside))

/-!
## What was read
-/

/-- The lexemes that leave brackets from some source lines open: each stands before a word of its
own. -/
inductive Opening.Traces : List Nat → List Nat → List (Lexeme × Nat) → Prop where
  | level {ls : List (Lexeme × Nat)} (nested : Nested (brackets ls)) : Traces [] [] ls
  | brace {braces : List Nat} {n : Nat} {front back : List (Lexeme × Nat)}
      (outer : Traces [] braces front) (nested : Nested (brackets back)) :
      Traces [] (n :: braces) (front ++ (.openBrace, n) :: back)
  | paren {parens braces : List Nat} {n : Nat} {front back : List (Lexeme × Nat)}
      (outer : Traces parens braces front) (grouped : Grouped (brackets back)) :
      Traces (n :: parens) braces (front ++ (.openParen, n) :: back)

namespace Opening

variable {o o' : Opening} {l : Lexeme} {n : Nat} {ls ls' more : List (Lexeme × Nat)}
variable {parens braces : List Nat}

theorem Traces.grouped (traces : Traces parens braces ls) (grouped : Grouped (brackets more)) :
    Traces parens braces (ls ++ more) := by
  cases traces with
  | level nested =>
      refine .level ?_
      rw [brackets_append]
      exact nested.append grouped.nested
  | brace outer nested =>
      rw [List.append_assoc, List.cons_append]
      refine .brace outer ?_
      rw [brackets_append]
      exact nested.append grouped.nested
  | paren outer inner =>
      rw [List.append_assoc, List.cons_append]
      refine .paren outer ?_
      rw [brackets_append]
      exact inner.append grouped

theorem Traces.nested (traces : Traces [] braces ls) (nested : Nested (brackets more)) :
    Traces [] braces (ls ++ more) := by
  cases traces with
  | level first =>
      refine .level ?_
      rw [brackets_append]
      exact first.append nested
  | brace outer first =>
      rw [List.append_assoc, List.cons_append]
      refine .brace outer ?_
      rw [brackets_append]
      exact first.append nested

theorem Traces.read (traces : Traces o.parens o.braces ls) (takes : o.Takes n l o') :
    Traces o'.parens o'.braces (ls ++ [(l, n)]) := by
  cases takes with
  | openParen => exact .paren traces .nil
  | closeParen open_ =>
      rw [open_] at traces
      cases traces with
      | paren outer grouped =>
          rw [List.append_assoc]
          refine outer.grouped ?_
          rw [List.cons_append, brackets_group]
          exact .group grouped .nil
  | openBrace outside =>
      rw [outside] at traces
      have parens : (o.inBrace n).parens = [] := outside
      rw [parens]
      exact .brace traces .nil
  | closeBrace outside open_ =>
      rw [outside, open_] at traces
      simp only [outside]
      cases traces with
      | brace outer nested =>
          rw [List.append_assoc]
          refine outer.nested ?_
          rw [List.cons_append, brackets_block]
          exact .block nested .nil
  | label _ => exact traces.grouped .nil
  | plain plain _ =>
      refine traces.grouped ?_
      rw [brackets_cons_plain plain]
      exact .nil

theorem Traces.readAll (traces : Traces o.parens o.braces ls) (done : o.readAll more = .ok o') :
    Traces o'.parens o'.braces (ls ++ more) := by
  induction more generalizing o ls with
  | nil =>
      cases done
      rwa [List.append_nil]
  | cons first rest ih =>
      obtain ⟨l, n⟩ := first
      rw [readAll_cons] at done
      cases step : o.read l n with
      | error e => simp [step] at done
      | ok o₁ =>
          rw [step, Except.bind_ok] at done
          have onward := ih (traces.read (takes_of_read step)) done
          rwa [List.append_assoc] at onward

theorem traces_of_readAll (done : ({} : Opening).readAll ls = .ok o) :
    Traces o.parens o.braces ls := by
  have start : Traces ({} : Opening).parens ({} : Opening).braces [] := .level .nil
  exact start.readAll done

theorem Takes.names (takes : o.Takes n l o') (distinct : o.names.Nodup) :
    o'.names = o.names ++ labels [(l, n)] ∧ o'.names.Nodup := by
  cases takes with
  | @label tag new =>
      refine ⟨rfl, List.nodup_append.2 ⟨distinct, by simp, ?_⟩⟩
      intro a member b same
      rw [List.mem_singleton.1 same]
      rintro rfl
      exact new member
  | plain _ unlabelled =>
      refine ⟨?_, distinct⟩
      simp [labels, unlabelled]
  | _ => exact ⟨(List.append_nil _).symm, distinct⟩

theorem names_readAll (done : o.readAll ls = .ok o') (distinct : o.names.Nodup) :
    o'.names = o.names ++ labels ls ∧ o'.names.Nodup := by
  induction ls generalizing o with
  | nil =>
      cases done
      exact ⟨(List.append_nil _).symm, distinct⟩
  | cons first rest ih =>
      obtain ⟨l, n⟩ := first
      rw [readAll_cons] at done
      cases step : o.read l n with
      | error e => simp [step] at done
      | ok o₁ =>
          rw [step, Except.bind_ok] at done
          obtain ⟨names, distinct⟩ := (takes_of_read step).names distinct
          obtain ⟨all, distinct⟩ := ih done distinct
          refine ⟨?_, distinct⟩
          rw [all, names, List.append_assoc, ← labels_append]
          rfl

/-!
## Continuations
-/

theorem exists_closingParens (o : Opening) : ∃ more, o.readAll more = .ok
    { o with parens := [] } := by
  obtain ⟨parens, braces, names⟩ := o
  induction parens with
  | nil => exact ⟨[], rfl⟩
  | cons m parens ih =>
      obtain ⟨more, done⟩ := ih
      exact ⟨(.closeParen, 0) :: more, done⟩

theorem exists_closingBraces (o : Opening) (outside : o.parens = []) :
    ∃ more, o.readAll more = .ok { o with braces := [] } := by
  obtain ⟨parens, braces, names⟩ := o
  subst outside
  induction braces with
  | nil => exact ⟨[], rfl⟩
  | cons m braces ih =>
      obtain ⟨more, done⟩ := ih
      exact ⟨(.closeBrace, 0) :: more, done⟩

theorem finish_eq_ok_iff : o.finish = .ok () ↔ o.parens = [] ∧ o.braces = [] := by
  obtain ⟨parens, braces, names⟩ := o
  cases parens with
  | nil => cases braces <;> simp [finish]
  | cons m parens => simp [finish]

end Opening

end LineScript

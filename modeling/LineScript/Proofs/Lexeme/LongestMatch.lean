import LineScript.Proofs.Lexeme.Patterns

/-!
# Scans take the longest match

A scan looks at the first characters and commits itself to one way of reading; here it is shown to
find what the patterns of lexemes take (`agrees_scan`).  The first character tells which patterns
come into question (`takes_of_class`), so each scan is compared with the few patterns of its class
only: those of numbers, of words and templates, and of symbols and comments.  Blanks are the
exception, which are scanned one by one but taken in runs (`takes_blank`).
-/

namespace LineScript.Lexeme

open Number
open scoped Computability

/-!
## Strings
-/

section Strings

variable {cs body rest : List Char}

theorem quotedBody_of_mem (mem : body ∈ stringBody) (rest : List Char) :
    quotedBody (body ++ '"' :: rest) = (body, some rest) := by
  refine star_induction mem ?_ ?_
  · cases rest <;> rfl
  · rintro _ (⟨c, plain, rfl⟩ | ⟨_, ⟨c, backslash, rfl⟩, _, ⟨d, newline, rfl⟩, rfl⟩) body ih
    · simp only [Bool.and_eq_true, decide_eq_true_eq] at plain
      rw [List.singleton_append, List.cons_append,
        quotedBody_plain plain.1.1 plain.2 plain.1.2 (by simp), ih]
    · obtain rfl := of_decide_eq_true backslash
      simp only [List.cons_append, List.nil_append]
      rw [quotedBody_escaped (of_decide_eq_true newline), ih]

theorem stringBody_plain {c : Char} (plain : c ≠ '"' ∧ c ≠ '\\' ∧ c ≠ '\n')
    (mem : body ∈ stringBody) : c :: body ∈ stringBody :=
  star_cons (t := [c]) (.inl ⟨c, by simp [plain], rfl⟩) mem

theorem stringBody_escaped {d : Char} (newline : d ≠ '\n') (mem : body ∈ stringBody) :
    '\\' :: d :: body ∈ stringBody :=
  star_cons (t := ['\\', d])
    (.inr ⟨['\\'], ⟨'\\', rfl, rfl⟩, [d], ⟨d, decide_eq_true newline, rfl⟩, rfl⟩) mem

theorem stringBody_nil : [] ∈ stringBody :=
  Language.nil_mem_kstar _

/-- A string body and what follows its quote, or the rest of a line that could begin one. -/
def BodyOf (cs : List Char) : List Char × Option (List Char) → Prop
  | (body, some rest) => body ∈ stringBody ∧ cs = body ++ '"' :: rest
  | (body, none) => body = cs.takeWhile (· ≠ '\n') ∧ ∃ more, body ++ more ∈ stringBody

theorem BodyOf.plain {c : Char} {tail : Option (List Char)} (bodyOf : BodyOf cs (body, tail))
    (plain : c ≠ '"' ∧ c ≠ '\\' ∧ c ≠ '\n') : BodyOf (c :: cs) (c :: body, tail) := by
  cases tail with
  | some rest => exact ⟨stringBody_plain plain bodyOf.1, congrArg (c :: ·) bodyOf.2⟩
  | none =>
      obtain ⟨line, more, mem⟩ := bodyOf
      exact ⟨by simp [line, plain], more, stringBody_plain plain mem⟩

theorem BodyOf.escaped {d : Char} {tail : Option (List Char)} (bodyOf : BodyOf cs (body, tail))
    (newline : d ≠ '\n') : BodyOf ('\\' :: d :: cs) ('\\' :: d :: body, tail) := by
  cases tail with
  | some rest =>
      exact ⟨stringBody_escaped newline bodyOf.1, congrArg ('\\' :: d :: ·) bodyOf.2⟩
  | none =>
      obtain ⟨line, more, mem⟩ := bodyOf
      exact ⟨by simp [line, newline], more, stringBody_escaped newline mem⟩

theorem bodyOf_backslash {rest : List Char} (ends : rest = [] ∨ rest.head? = some '\n') :
    BodyOf ('\\' :: rest) (['\\'], none) := by
  refine ⟨?_, ['\\'], stringBody_escaped (by decide) stringBody_nil⟩
  rcases ends with rfl | newline
  · rfl
  · obtain ⟨more, rfl⟩ := List.head?_eq_some_iff.1 newline
    rfl

theorem bodyOf_quotedBody (cs : List Char) : BodyOf cs (quotedBody cs) := by
  have nothing (cs : List Char) (line : cs.takeWhile (· ≠ '\n') = []) : BodyOf cs ([], none) :=
    ⟨line.symm, [], stringBody_nil⟩
  fun_induction quotedBody cs with
  | case1 => exact nothing _ rfl
  | case2 => exact ⟨stringBody_nil, rfl⟩
  | case3 => exact nothing _ rfl
  | case4 c quote newline =>
      by_cases backslash : c = '\\'
      · subst backslash
        exact bodyOf_backslash (.inl rfl)
      · exact (nothing [] rfl).plain ⟨quote, backslash, newline⟩
  | case5 => exact ⟨stringBody_nil, rfl⟩
  | case6 => exact nothing _ rfl
  | case7 => exact bodyOf_backslash (.inr rfl)
  | case8 d rest newline body tail found _ _ ih => exact (found ▸ ih).escaped newline
  | case9 c d rest quote newline backslash body tail found ih =>
      exact (found ▸ ih).plain ⟨quote, backslash, newline⟩

end Strings

/-!
## Block comments
-/

section Comments

variable {cs body rest : List Char} {n : Nat}

theorem commentEnd?_plain {c : Char} (star : c ≠ '*') (cs : List Char) :
    commentEnd? (c :: cs) = (commentEnd? cs).map fun (n, tail) => (n + countNewline c, tail) := by
  cases cs with
  | nil => rfl
  | cons d rest => rw [commentEnd?, if_neg star]

theorem commentEnd?_star {d : Char} (slash : d ≠ '/') (rest : List Char) :
    commentEnd? ('*' :: d :: rest) =
      (commentEnd? rest).map fun (n, tail) => (n + countNewline d, tail) := by
  rw [commentEnd?, if_pos rfl, if_neg slash]

theorem commentEnd?_terminator (rest : List Char) :
    commentEnd? ('*' :: '/' :: rest) = some (0, rest) := by
  rw [commentEnd?, if_pos rfl, if_pos rfl]

theorem count_newline_cons (c : Char) (cs : List Char) :
    (c :: cs).count '\n' = cs.count '\n' + countNewline c := by
  rw [List.count_cons, countNewline]
  simp only [beq_iff_eq]

theorem commentEnd?_append (mem : body ∈ commentBody) (rest : List Char) :
    commentEnd? (body ++ rest) =
      (commentEnd? rest).map fun (n, tail) => (n + body.count '\n', tail) := by
  refine star_induction mem Option.map_id'.symm ?_
  rintro _ (⟨c, star, rfl⟩ | ⟨_, ⟨c, star, rfl⟩, _, ⟨d, slash, rfl⟩, rfl⟩) body ih
  · rw [List.singleton_append, List.cons_append, commentEnd?_plain (of_decide_eq_true star), ih]
    simp only [Option.map_map, Function.comp_def, count_newline_cons, Nat.add_assoc]
  · obtain rfl := of_decide_eq_true star
    simp only [List.cons_append, List.nil_append]
    rw [commentEnd?_star (of_decide_eq_true slash), ih]
    simp only [Option.map_map, Function.comp_def, count_newline_cons, Nat.add_assoc]
    rfl

theorem commentEnd?_of_mem (mem : body ∈ commentBody) (rest : List Char) :
    commentEnd? (body ++ '*' :: '/' :: rest) = some (body.count '\n', rest) := by
  rw [commentEnd?_append mem, commentEnd?_terminator]
  simp

theorem commentBody_plain {c : Char} (star : c ≠ '*') (mem : body ∈ commentBody) :
    c :: body ∈ commentBody :=
  star_cons (t := [c]) (.inl ⟨c, decide_eq_true star, rfl⟩) mem

theorem commentBody_star {d : Char} (slash : d ≠ '/') (mem : body ∈ commentBody) :
    '*' :: d :: body ∈ commentBody :=
  star_cons (t := ['*', d])
    (.inr ⟨['*'], ⟨'*', rfl, rfl⟩, [d], ⟨d, decide_eq_true slash, rfl⟩, rfl⟩) mem

theorem exists_commentBody (ended : commentEnd? cs = some (n, rest)) :
    ∃ body ∈ commentBody, cs = body ++ '*' :: '/' :: rest := by
  fun_induction commentEnd? cs generalizing n with
  | case1 => cases ended
  | case2 => cases ended
  | case3 =>
      cases ended
      exact ⟨[], Language.nil_mem_kstar _, rfl⟩
  | case4 d more slash ih =>
      obtain ⟨⟨n', rest'⟩, ended, same⟩ := Option.map_eq_some_iff.1 ended
      cases same
      obtain ⟨body, mem, rfl⟩ := ih ended
      exact ⟨_, commentBody_star slash mem, rfl⟩
  | case5 c d more star ih =>
      obtain ⟨⟨n', rest'⟩, ended, same⟩ := Option.map_eq_some_iff.1 ended
      cases same
      obtain ⟨body, mem, split⟩ := ih ended
      exact ⟨_, commentBody_plain star mem, congrArg (c :: ·) split⟩

end Comments

/-!
## Runs of one class
-/

section Runs

variable {p : Char → Bool} {t cs : List Char}

theorem prefix_takeWhile (split : t <+: cs) (all : ∀ c ∈ t, p c = true) : t <+: cs.takeWhile p := by
  obtain ⟨rest, rfl⟩ := split
  rw [List.takeWhile_append_of_pos all]
  exact List.prefix_append t _

theorem shorter_or_eq {u : List Char} (split : t <+: u) : t.length < u.length ∨ t = u := by
  rcases Nat.lt_or_eq_of_le split.length_le with shorter | same
  · exact .inl shorter
  · exact .inr (split.eq_of_length same)

theorem takeWhile_class (cs : List Char) : ∀ c ∈ cs.takeWhile p, p c = true :=
  List.all_eq_true.1 List.all_takeWhile

end Runs

/-!
## What a scan finds
-/

open Pattern

def Scan.Agrees (cs : List Char) : Scan → Prop
  | .lexeme l rest => ∃ (p : Pattern) (text : List Char), cs = text ++ rest ∧ p.Takes text cs ∧
      p.reading text = .lexeme l
  | .skip n rest => ∃ (p : Pattern) (text : List Char), cs = text ++ rest ∧ p.Takes text cs ∧
      p.reading text = .skipped ∧ n = text.count '\n'
  | .refused text => Stuck text cs

theorem agrees_literal {p : Pattern} {text rest cs : List Char} {l? : Option Lexeme}
    (split : cs = text ++ rest) (takes : p.Takes text cs) (reads : p.reading text = .ofOption l?) :
    (Scan.literal text l? rest).Agrees cs := by
  cases l? with
  | some l => exact ⟨p, text, split, takes, reads⟩
  | none => exact .inl ⟨p, takes, reads⟩

theorem initial_of_takes {q : Pattern} {t cs : List Char} {c : Char} (split : t <+: c :: cs)
    (mem : t ∈ q.language) : ∃ t', t = c :: t' ∧ t' <+: cs ∧ q.initial = Lexeme.initial c := by
  obtain ⟨d, t', rfl, same⟩ := exists_initial mem
  obtain ⟨rfl, split'⟩ := List.cons_prefix_cons.1 split
  exact ⟨t', rfl, split', same.symm⟩

theorem Viable.cases {t cs : List Char} {c : Char} (viable : Viable t) (split : t <+: c :: cs) :
    t = [] ∨ ∃ (t' : List Char) (q : Pattern) (more : List Char), t = c :: t' ∧ t' <+: cs ∧
      q.initial = Lexeme.initial c ∧ c :: (t' ++ more) ∈ q.language := by
  obtain ⟨q, more, mem⟩ := viable
  rcases List.prefix_cons_iff.1 split with rfl | ⟨t', rfl, split'⟩
  · exact .inl rfl
  · obtain ⟨d, rest, same, start⟩ := exists_initial mem
    cases same
    exact .inr ⟨t', q, more, rfl, split', start.symm, mem⟩

theorem unmatched_alone {c : Char} {cs : List Char}
    (alone : ∀ (q : Pattern) (t more : List Char), q.initial = Lexeme.initial c → t <+: cs →
      c :: (t ++ more) ∈ q.language → t = [] ∧ more ≠ []) : Unmatched [c] (c :: cs) where
  split := List.cons_prefix_cons.2 ⟨rfl, List.nil_prefix⟩
  filled := List.cons_ne_nil _ _
  nothing q t split mem := by
    obtain ⟨t', rfl, split', same⟩ := initial_of_takes split mem
    exact (alone q t' [] same split' (by rwa [List.append_nil])).2 rfl
  begun := .inr rfl
  farthest t split viable := by
    rcases viable.cases split with rfl | ⟨t', q, more, rfl, split', same, mem⟩
    · exact Nat.zero_le _
    · rw [(alone q t' more same split' mem).1]

theorem takes_of_class {p : Pattern} {text cs : List Char} {c : Char} (split : text <+: c :: cs)
    (mem : text ∈ p.language)
    (others : ∀ (q : Pattern) (t : List Char), q.initial = Lexeme.initial c → t <+: c :: cs →
      t ∈ q.language → t.length < text.length ∨
        t = text ∧ (q = p ∨ p = .reserved ∧ q = .name)) : p.Takes text (c :: cs) where
  split := split
  matched := mem
  longest q t split' mem' := by
    obtain ⟨-, -, -, same⟩ := initial_of_takes split' mem'
    rcases others q t same split' mem' with shorter | ⟨rfl, -⟩
    · exact Nat.le_of_lt shorter
    · exact Nat.le_refl _
  foremost q mem' := by
    obtain ⟨-, -, -, same⟩ := initial_of_takes split mem'
    rcases others q text same split mem' with shorter | ⟨-, behind⟩
    · exact absurd shorter (Nat.lt_irrefl _)
    · exact behind

/-!
## Numbers
-/

theorem span_of_float {whole : List Char} (digits : whole ∈ several isDigit) (more : List Char) :
    (whole ++ '.' :: more).takeWhile isDigit = whole ∧
      (whole ++ '.' :: more).dropWhile isDigit = '.' :: more :=
  takeWhile_append (mem_several.1 digits).2 fun c point => by cases point; rfl

theorem takeWhile_isDigit {c : Char} (digit : isDigit c = true) (cs : List Char) :
    (c :: cs).takeWhile isDigit ∈ several isDigit := by
  refine mem_several.2 ⟨?_, takeWhile_class _⟩
  rw [List.takeWhile_cons_of_pos digit]
  exact List.cons_ne_nil _ _

theorem float_or_integer {q : Pattern} (same : q.initial = .digit) : q = .float ∨ q = .integer := by
  cases q <;> simp [Pattern.initial] at same ⊢

theorem agrees_integer {c : Char} {cs : List Char} (digit : isDigit c = true)
    (noFloat : ∀ t, t <+: c :: cs → t ∉ language .float) :
    (Scan.literal ((c :: cs).takeWhile isDigit) (integer? ((c :: cs).takeWhile isDigit))
      ((c :: cs).dropWhile isDigit)).Agrees (c :: cs) := by
  refine agrees_literal (p := .integer) List.takeWhile_append_dropWhile.symm ?_ rfl
  refine takes_of_class (List.takeWhile_prefix _) (takeWhile_isDigit digit cs) ?_
  intro q t same split mem
  rw [initial_of_isDigit digit] at same
  rcases float_or_integer same with rfl | rfl
  · exact absurd mem (noFloat t split)
  · exact (shorter_or_eq (prefix_takeWhile split (mem_several.1 mem).2)).imp_right fun same =>
      ⟨same, .inl rfl⟩

theorem agrees_float {c : Char} {cs more : List Char} (digit : isDigit c = true)
    (point : (c :: cs).dropWhile isDigit = '.' :: more)
    (fraction : more.takeWhile isDigit ∈ several isDigit) :
    (Scan.lexeme (.float (roundDecimal
        (natOfDigits ((c :: cs).takeWhile isDigit ++ more.takeWhile isDigit))
        (-(more.takeWhile isDigit).length))) (more.dropWhile isDigit)).Agrees (c :: cs) := by
  have whole := takeWhile_isDigit digit cs
  generalize digits : (c :: cs).takeWhile isDigit = w at whole ⊢
  have parts : w ++ '.' :: more = c :: cs := by
    rw [← digits, ← point, List.takeWhile_append_dropWhile]
  have split : c :: cs = (w ++ '.' :: more.takeWhile isDigit) ++ more.dropWhile isDigit := by
    rw [← parts, List.append_assoc, List.cons_append, List.takeWhile_append_dropWhile]
  refine ⟨.float, w ++ '.' :: more.takeWhile isDigit, split, ?_, ?_⟩
  · refine takes_of_class (split ▸ List.prefix_append _ _)
      (mem_float.2 ⟨w, whole, _, fraction, rfl⟩) ?_
    intro q t same split mem
    rw [initial_of_isDigit digit] at same
    rcases float_or_integer same with rfl | rfl
    · obtain ⟨w', whole', f, fraction', rfl⟩ := mem_float.1 mem
      obtain ⟨rest, split⟩ := split
      rw [List.append_assoc, List.cons_append] at split
      have span := span_of_float whole' (f ++ rest)
      rw [split] at span
      obtain ⟨digits', point'⟩ := span
      obtain rfl := digits.symm.trans digits'
      obtain rfl : more = f ++ rest := (List.cons.inj (point.symm.trans point')).2
      rcases shorter_or_eq (prefix_takeWhile (List.prefix_append f rest)
        (mem_several.1 fraction').2)
        with shorter | same
      · exact .inl (by simpa using shorter)
      · exact .inr ⟨by rw [← same], .inl rfl⟩
    · have shorter := (prefix_takeWhile split (mem_several.1 mem).2).length_le
      rw [digits] at shorter
      exact .inl (by simp only [List.length_append, List.length_cons]; omega)
  · obtain ⟨digits', point'⟩ := span_of_float whole (more.takeWhile isDigit)
    simp only [reading, decimal, digits', point', List.tail_cons]

theorem agrees_scanNumber {c : Char} {cs : List Char} (digit : isDigit c = true) :
    (scanNumber (c :: cs)).Agrees (c :: cs) := by
  have point {t : List Char} (split : t <+: c :: cs) (mem : t ∈ language .float) :
      ∃ more, (c :: cs).dropWhile isDigit = '.' :: more ∧ more.takeWhile isDigit ≠ [] := by
    obtain ⟨w, whole, f, fraction, rfl⟩ := mem_float.1 mem
    obtain ⟨rest, split⟩ := split
    rw [List.append_assoc, List.cons_append] at split
    obtain ⟨filled, all⟩ := mem_several.1 fraction
    have span := span_of_float whole (f ++ rest)
    rw [split] at span
    refine ⟨f ++ rest, span.2, ?_⟩
    rw [List.takeWhile_append_of_pos all]
    simp [filled]
  unfold scanNumber
  simp only
  split
  case h_1 more found =>
    split
    case isTrue none =>
      refine agrees_integer digit fun t split mem => ?_
      obtain ⟨more', found', some⟩ := point split mem
      rw [found] at found'
      cases found'
      exact some (List.isEmpty_iff.1 none)
    case isFalse some =>
      refine agrees_float digit found (mem_several.2 ⟨?_, takeWhile_class _⟩)
      simpa using some
  case h_2 other =>
    refine agrees_integer digit fun t split mem => ?_
    obtain ⟨more, found, -⟩ := point split mem
    exact other more found

/-!
## Words and templates
-/

theorem word_or_template {q : Pattern} (same : q.initial = .letter) :
    q = .reserved ∨ q = .name ∨ q = .template := by
  cases q <;> simp [Pattern.initial] at same ⊢

theorem agrees_scanWord {c : Char} {cs : List Char} (start : isWordStart c = true)
    (noTemplate : ∀ t, t <+: c :: cs → t ∉ language .template) :
    (scanWord (c :: cs)).Agrees (c :: cs) := by
  unfold scanWord ofWord
  generalize taken : (c :: cs).takeWhile isWordChar = letters
  have split : c :: cs = letters ++ (c :: cs).dropWhile isWordChar := by
    rw [← taken, List.takeWhile_append_dropWhile]
  have isName : letters ∈ language .name := by
    rw [← taken, List.takeWhile_cons_of_pos (isWordChar_of_isWordStart start)]
    exact mem_name.2 ⟨c, _, start, takeWhile_class _, rfl⟩
  have names {t : List Char} (split : t <+: c :: cs) (mem : t ∈ language .name) :
      t.length < letters.length ∨ t = letters := by
    obtain ⟨d, ds, start', all, rfl⟩ := mem_name.1 mem
    exact taken ▸ shorter_or_eq (prefix_takeWhile split
      (List.forall_mem_cons.2 ⟨isWordChar_of_isWordStart start', all⟩))
  have front : letters <+: c :: cs := split ▸ List.prefix_append _ _
  cases known : reserved.lookup (String.ofList letters) with
  | some l =>
      have mem : letters ∈ language .reserved := Option.isSome_of_eq_some known
      refine ⟨.reserved, letters, split, takes_of_class front mem ?_, by
        simp [reading, known, Reading.ofOption]⟩
      intro q t same split mem
      rw [initial_of_isWordStart start] at same
      rcases word_or_template same with rfl | rfl | rfl
      · exact (names split (mem_name_of_reserved mem)).imp_right fun same => ⟨same, .inl rfl⟩
      · exact (names split mem).imp_right fun same => ⟨same, .inr ⟨rfl, rfl⟩⟩
      · exact absurd mem (noTemplate t split)
  | none =>
      refine ⟨.name, letters, split, takes_of_class front isName ?_, rfl⟩
      intro q t same split mem
      rw [initial_of_isWordStart start] at same
      rcases word_or_template same with rfl | rfl | rfl
      · refine (names split (mem_name_of_reserved mem)).imp_right fun same => ?_
        have found : (reserved.lookup (String.ofList t)).isSome = true := mem
        rw [same, known] at found
        cases found
      · exact (names split mem).imp_right fun same => ⟨same, .inl rfl⟩
      · exact absurd mem (noTemplate t split)

theorem quoted_unique {body cs body' rest : List Char} (mem : body ∈ stringBody)
    (split : body ++ ['"'] <+: cs) (ended : quotedBody cs = (body', some rest)) : body = body' := by
  obtain ⟨more, rfl⟩ := split
  rw [List.append_assoc, List.singleton_append, quotedBody_of_mem mem] at ended
  exact (Prod.mk.inj ended).1

theorem length_of_name {t cs : List Char} (split : t <+: 'f' :: '"' :: cs)
    (mem : t ∈ language .name) : t.length ≤ 1 := by
  obtain ⟨c, ds, start, all, rfl⟩ := mem_name.1 mem
  exact (prefix_takeWhile split
    (List.forall_mem_cons.2 ⟨isWordChar_of_isWordStart start, all⟩)).length_le

theorem agrees_scanTemplate (cs : List Char) :
    (scanTemplate cs).Agrees ('f' :: '"' :: cs) := by
  have bodyOf := bodyOf_quotedBody cs
  have template {t : List Char} (split : t <+: 'f' :: '"' :: cs) (mem : t ∈ language .template) :
      ∃ body ∈ stringBody, t = 'f' :: '"' :: (body ++ ['"']) ∧ body ++ ['"'] <+: cs := by
    obtain ⟨body, inside, rfl⟩ := mem_template.1 mem
    exact ⟨body, inside, rfl,
      (List.cons_prefix_cons.1 (List.cons_prefix_cons.1 split).2).2⟩
  unfold scanTemplate
  split
  case h_1 body rest ended =>
    rw [ended] at bodyOf
    obtain ⟨mem, rfl⟩ := bodyOf
    have split : 'f' :: '"' :: (body ++ '"' :: rest) =
      'f' :: '"' :: (body ++ ['"']) ++ rest := by simp
    refine agrees_literal (p := .template) split ?_ ?_
    · refine takes_of_class (split ▸ List.prefix_append _ _) (mem_template.2 ⟨body, mem, rfl⟩) ?_
      intro q t same split mem
      have names (mem : t ∈ language .name) :
          t.length < ('f' :: '"' :: (body ++ ['"'])).length := by
        have short := length_of_name split mem
        simp only [List.length_append, List.length_cons]
        omega
      rcases word_or_template same with rfl | rfl | rfl
      · exact .inl (names (mem_name_of_reserved mem))
      · exact .inl (names mem)
      · obtain ⟨body', mem', rfl, split'⟩ := template split mem
        obtain rfl := quoted_unique mem' split' ended
        exact .inr ⟨rfl, .inl rfl⟩
    · simp [reading]
  case h_2 ended =>
    refine agrees_scanWord (by decide) fun t split mem => ?_
    obtain ⟨body', mem', -, more, rfl⟩ := template split mem
    rw [List.append_assoc, List.singleton_append, quotedBody_of_mem mem'] at ended
    cases ended

/-!
## Strings and labels
-/

theorem not_mem_stringBody {body : List Char} (mem : body ∈ stringBody) : '\n' ∉ body := by
  refine star_induction mem (List.not_mem_nil) ?_
  rintro _ (⟨c, plain, rfl⟩ | ⟨_, ⟨c, backslash, rfl⟩, _, ⟨d, newline, rfl⟩, rfl⟩) body ih
  · simp only [Bool.and_eq_true, decide_eq_true_eq] at plain
    simp [ih, Ne.symm plain.2]
  · obtain rfl := of_decide_eq_true backslash
    simp [ih, Ne.symm (of_decide_eq_true newline)]

theorem agrees_scanString (cs : List Char) : (scanString cs).Agrees ('"' :: cs) := by
  have bodyOf := bodyOf_quotedBody cs
  have isString {q : Pattern} (same : q.initial = .quote) : q = .string := by
    cases q <;> simp [Pattern.initial] at same ⊢
  unfold scanString
  split
  case h_1 body rest ended =>
    rw [ended] at bodyOf
    obtain ⟨mem, rfl⟩ := bodyOf
    have split : '"' :: (body ++ '"' :: rest) = '"' :: (body ++ ['"']) ++ rest := by simp
    refine agrees_literal (p := .string) split ?_ ?_
    · refine takes_of_class (split ▸ List.prefix_append _ _) (mem_string.2 ⟨body, mem, rfl⟩) ?_
      intro q t same split mem
      obtain rfl := isString same
      obtain ⟨body', mem', rfl⟩ := mem_string.1 mem
      obtain rfl := quoted_unique mem' (List.cons_prefix_cons.1 split).2 ended
      exact .inr ⟨rfl, .inl rfl⟩
    · simp [reading]
  case h_2 body ended =>
    rw [ended] at bodyOf
    obtain ⟨line, more, begins⟩ := bodyOf
    refine .inr ⟨?_, List.cons_ne_nil _ _, ?_, .inl ⟨.string, more ++ ['"'], ?_⟩, ?_⟩
    · exact List.cons_prefix_cons.2 ⟨rfl, line ▸ List.takeWhile_prefix _⟩
    · intro q t split mem
      obtain ⟨-, -, -, same⟩ := initial_of_takes split mem
      obtain rfl := isString same
      obtain ⟨body', mem', rfl⟩ := mem_string.1 mem
      obtain ⟨rest, rfl⟩ := (List.cons_prefix_cons.1 split).2
      rw [List.append_assoc, List.singleton_append, quotedBody_of_mem mem'] at ended
      cases ended
    · exact mem_string.2 ⟨body ++ more, begins, by simp⟩
    · intro t split viable
      rcases viable.cases split with rfl | ⟨t', q, more', rfl, split', same, mem⟩
      · exact Nat.zero_le _
      obtain rfl := isString same
      obtain ⟨body', mem', parts⟩ := mem_string.1 mem
      have inLine : ∀ c ∈ t', decide (c ≠ '\n') = true := by
        intro c member
        have member' : c ∈ body' ++ ['"'] := by
          rw [← (List.cons.inj parts).2]
          exact List.mem_append_left more' member
        rw [decide_eq_true_eq]
        rintro rfl
        simp [not_mem_stringBody mem'] at member'
      have short := (prefix_takeWhile split' inLine).length_le
      rw [← line] at short
      exact Nat.succ_le_succ short

theorem agrees_scanLabel (cs : List Char) : (scanLabel cs).Agrees ('@' :: cs) := by
  have isLabel {q : Pattern} (same : q.initial = .at) : q = .label := by
    cases q <;> simp [Pattern.initial] at same ⊢
  have refused (noLetter : ∀ c, cs.head? = some c → isWordStart c = false) :
      Stuck ['@'] ('@' :: cs) := by
    refine .inr (unmatched_alone fun q t more same split mem => ?_)
    obtain rfl := isLabel same
    obtain ⟨c, ds, start, -, parts⟩ := mem_label.1 mem
    cases t with
    | nil =>
        refine ⟨rfl, ?_⟩
        rintro rfl
        cases parts
    | cons d t =>
        obtain ⟨rest, rfl⟩ := split
        obtain rfl : d = c := (List.cons.inj (List.cons.inj parts).2).1
        rw [noLetter d rfl] at start
        cases start
  unfold scanLabel
  split
  case h_1 =>
    refine refused fun c head => ?_
    cases head
  case h_2 c rest =>
    split
    case isTrue start =>
      generalize taken : (c :: rest).takeWhile isWordChar = letters
      have split : '@' :: c :: rest = '@' :: letters ++ (c :: rest).dropWhile isWordChar := by
        rw [List.cons_append, ← taken, List.takeWhile_append_dropWhile]
      have mem : '@' :: letters ∈ language .label := by
        rw [← taken, List.takeWhile_cons_of_pos (isWordChar_of_isWordStart start)]
        exact mem_label.2 ⟨c, _, start, takeWhile_class _, rfl⟩
      refine ⟨.label, '@' :: letters, split,
        takes_of_class (split ▸ List.prefix_append _ _) mem ?_, rfl⟩
      intro q t same split mem
      obtain rfl := isLabel same
      obtain ⟨d, ds, start', all, rfl⟩ := mem_label.1 mem
      have front := prefix_takeWhile (List.cons_prefix_cons.1 split).2
        (List.forall_mem_cons.2 ⟨isWordChar_of_isWordStart start', all⟩)
      rw [taken] at front
      exact (shorter_or_eq front).imp Nat.succ_lt_succ fun same =>
        ⟨congrArg ('@' :: ·) same, .inl rfl⟩
    case isFalse other =>
      refine refused fun d same => ?_
      cases same
      exact Bool.eq_false_iff.2 other

/-!
## Symbols and comments
-/

theorem symbol_or_comment {q : Pattern} (same : q.initial = .symbol) :
    q = .pair ∨ q = .single ∨ q = .lineComment ∨ q = .blockComment := by
  cases q <;> simp [Pattern.initial] at same ⊢

section Symbols

variable {c : Char} {cs : List Char} (symbol : Lexeme.initial c = .symbol)
  (noComment : ∀ t, t <+: c :: cs → t ∉ language .lineComment ∧ t ∉ language .blockComment)
include symbol noComment

theorem agrees_pair {d : Char} {rest : List Char} {l : Lexeme} (next : cs = d :: rest)
    (found : pairs.lookup (c, d) = some l) : (Scan.lexeme l rest).Agrees (c :: cs) := by
  subst next
  have mem : [c, d] ∈ language .pair := mem_pair.2 ⟨c, d, Option.isSome_of_eq_some found, rfl⟩
  refine ⟨.pair, [c, d], rfl, takes_of_class ⟨rest, rfl⟩ mem ?_, by
    simp [reading, found, Reading.ofOption]⟩
  intro q t same split mem
  rw [symbol] at same
  rcases symbol_or_comment same with rfl | rfl | rfl | rfl
  · obtain ⟨c', d', -, rfl⟩ := mem_pair.1 mem
    obtain ⟨rest', same⟩ := split
    cases same
    exact .inr ⟨rfl, .inl rfl⟩
  · obtain ⟨c', -, rfl⟩ := mem_single.1 mem
    exact .inl (by simp)
  · exact absurd mem (noComment t split).1
  · exact absurd mem (noComment t split).2

theorem agrees_single (noPair : ∀ t, t <+: c :: cs → t ∉ language .pair) {l : Lexeme}
    (found : singles.lookup c = some l) : (Scan.lexeme l cs).Agrees (c :: cs) := by
  have mem : [c] ∈ language .single := mem_single.2 ⟨c, Option.isSome_of_eq_some found, rfl⟩
  refine ⟨.single, [c], rfl, takes_of_class ⟨cs, rfl⟩ mem ?_, by
    simp [reading, found, Reading.ofOption]⟩
  intro q t same split mem
  rw [symbol] at same
  rcases symbol_or_comment same with rfl | rfl | rfl | rfl
  · exact absurd mem (noPair t split)
  · obtain ⟨c', -, rfl⟩ := mem_single.1 mem
    obtain ⟨rest', same⟩ := split
    cases same
    exact .inr ⟨rfl, .inl rfl⟩
  · exact absurd mem (noComment t split).1
  · exact absurd mem (noComment t split).2

theorem stuck_symbol (noPair : ∀ t, t <+: c :: cs → t ∉ language .pair)
    (unknown : singles.lookup c = none) : Stuck [c] (c :: cs) := by
  have notSlash : c ≠ '/' := by
    rintro rfl
    cases unknown
  refine .inr (unmatched_alone fun q t more same split mem => ?_)
  rw [symbol] at same
  rcases symbol_or_comment same with rfl | rfl | rfl | rfl
  · cases t with
    | nil =>
        refine ⟨rfl, ?_⟩
        rintro rfl
        obtain ⟨c', d, -, parts⟩ := mem_pair.1 mem
        cases parts
    | cons d t =>
        obtain ⟨c', d', -, parts⟩ := mem_pair.1 mem
        have ends : t ++ more = [] := (List.cons.inj (List.cons.inj parts).2).2
        obtain ⟨rfl, rfl⟩ := List.append_eq_nil_iff.1 ends
        exact absurd mem (noPair [c, d] (List.cons_prefix_cons.2 ⟨rfl, split⟩))
  · obtain ⟨c', found, parts⟩ := mem_single.1 mem
    rw [← (List.cons.inj parts).1, unknown] at found
    cases found
  · obtain ⟨body, -, parts⟩ := mem_lineComment.1 mem
    exact absurd (List.cons.inj parts).1 notSlash
  · obtain ⟨body, -, parts⟩ := mem_blockComment.1 mem
    exact absurd (List.cons.inj parts).1 notSlash

theorem agrees_scanSymbol : (scanSymbol c cs).Agrees (c :: cs) := by
  have alone {found : Scan} (noPair : ∀ t, t <+: c :: cs → t ∉ language .pair)
      (known : ∀ l, singles.lookup c = some l → found = .lexeme l cs)
      (unknown : singles.lookup c = none → found = .refused [c]) : found.Agrees (c :: cs) := by
    cases single : singles.lookup c with
    | some l => exact known l single ▸ agrees_single symbol noComment noPair single
    | none => exact unknown single ▸ stuck_symbol symbol noComment noPair single
  unfold scanSymbol
  cases cs with
  | nil =>
      refine alone (fun t split mem => ?_) (fun l known => by rw [known]) fun none => by rw [none]
      obtain ⟨c', d, -, rfl⟩ := mem_pair.1 mem
      exact absurd split.length_le (by simp)
  | cons d rest =>
      simp only
      cases found : pairs.lookup (c, d) with
      | some l => exact agrees_pair symbol noComment rfl found
      | none =>
          refine alone (fun t split mem => ?_)
            (fun l known => by rw [known]) fun none => by rw [none]
          obtain ⟨c', d', found', rfl⟩ := mem_pair.1 mem
          obtain ⟨rest', same⟩ := split
          cases same
          rw [found] at found'
          cases found'

end Symbols

theorem prefix_lineComment {t cs : List Char} (split : t <+: '/' :: cs)
    (mem : t ∈ language .lineComment) :
    ∃ rest, cs = '/' :: rest ∧ t <+: '/' :: '/' :: rest.takeWhile inLineComment := by
  obtain ⟨comment, all, rfl⟩ := mem_lineComment.1 mem
  obtain ⟨rest, rfl⟩ := (List.cons_prefix_cons.1 split).2
  refine ⟨comment ++ rest, rfl, ?_⟩
  have inside := prefix_takeWhile (List.prefix_append comment rest) all
  exact List.cons_prefix_cons.2 ⟨rfl, List.cons_prefix_cons.2 ⟨rfl, inside⟩⟩

theorem prefix_blockComment {t cs : List Char} (split : t <+: '/' :: cs)
    (mem : t ∈ language .blockComment) :
    ∃ body rest, t = '/' :: '*' :: (body ++ ['*', '/']) ∧ cs = '*' :: (body ++ '*' :: '/' :: rest) ∧
      commentEnd? (body ++ '*' :: '/' :: rest) = some (body.count '\n', rest) := by
  obtain ⟨body, inside, rfl⟩ := mem_blockComment.1 mem
  obtain ⟨rest, rfl⟩ := (List.cons_prefix_cons.1 split).2
  exact ⟨body, rest, rfl, by simp, commentEnd?_of_mem inside rest⟩

theorem takes_comment {p : Pattern} {d : Char} {text cs : List Char}
    (begins : '/' :: [d] <+: text) (noPair : pairs.lookup ('/', d) = none)
    (split : text <+: '/' :: cs) (mem : text ∈ p.language)
    (others : ∀ t, t <+: '/' :: cs → (t ∈ language .lineComment → p = .lineComment ∧ t <+: text) ∧
      (t ∈ language .blockComment → p = .blockComment ∧ t <+: text)) :
        p.Takes text ('/' :: cs) := by
  refine takes_of_class split mem fun q t same split' mem' => ?_
  rcases symbol_or_comment same with rfl | rfl | rfl | rfl
  · obtain ⟨c', d', found, rfl⟩ := mem_pair.1 mem'
    have same := List.prefix_of_prefix_length_le split' (begins.trans split) (Nat.le_refl 2)
    cases same.eq_of_length rfl
    rw [noPair] at found
    cases found
  · obtain ⟨c, -, rfl⟩ := mem_single.1 mem'
    exact .inl begins.length_le
  · obtain ⟨rfl, front⟩ := (others t split').1 mem'
    exact (shorter_or_eq front).imp_right fun same => ⟨same, .inl rfl⟩
  · obtain ⟨rfl, front⟩ := (others t split').2 mem'
    exact (shorter_or_eq front).imp_right fun same => ⟨same, .inl rfl⟩

theorem agrees_lineComment (rest : List Char) :
    (Scan.skip 0 (rest.dropWhile inLineComment)).Agrees ('/' :: '/' :: rest) := by
  have inside : ∀ c ∈ rest.takeWhile inLineComment, inLineComment c = true := takeWhile_class rest
  have split : '/' :: '/' :: rest =
      '/' :: '/' :: rest.takeWhile inLineComment ++ rest.dropWhile inLineComment := by
    rw [List.cons_append, List.cons_append, List.takeWhile_append_dropWhile]
  refine ⟨.lineComment, _, split, ?_, rfl, ?_⟩
  · refine takes_comment ⟨_, rfl⟩ (by decide) (split ▸ List.prefix_append _ _)
      (mem_lineComment.2 ⟨_, inside, rfl⟩) fun t split => ⟨fun mem => ?_, fun mem => ?_⟩
    · obtain ⟨rest', same, front⟩ := prefix_lineComment split mem
      cases same
      exact ⟨rfl, front⟩
    · obtain ⟨body, rest', -, other, -⟩ := prefix_blockComment split mem
      cases other
  · have noBreak : '\n' ∉ rest.takeWhile inLineComment := fun member => by
      cases inside _ member
    exact (List.count_eq_zero.2 noBreak).symm

theorem agrees_blockComment {cs rest : List Char} {n : Nat}
    (ended : commentEnd? cs = some (n, rest)) :
    (Scan.skip n rest).Agrees ('/' :: '*' :: cs) := by
  obtain ⟨body, mem, rfl⟩ := exists_commentBody ended
  have closed := commentEnd?_of_mem mem rest
  rw [ended] at closed
  cases closed
  have split : '/' :: '*' :: (body ++ '*' :: '/' :: rest) =
      '/' :: '*' :: (body ++ ['*', '/']) ++ rest := by simp
  refine ⟨.blockComment, _, split, ?_, rfl, by simp⟩
  refine takes_comment ⟨_, rfl⟩ (by decide) (split ▸ List.prefix_append _ _)
    (mem_blockComment.2 ⟨body, mem, rfl⟩) fun t split => ⟨fun mem => ?_, fun mem => ?_⟩
  · obtain ⟨rest', other, -⟩ := prefix_lineComment split mem
    cases other
  · obtain ⟨body', rest', rfl, same, ended'⟩ := prefix_blockComment split mem
    rw [← (List.cons.inj same).2, ended] at ended'
    obtain rfl : rest = rest' := (Prod.mk.inj (Option.some.inj ended')).2
    obtain rfl : body = body' := List.append_cancel_right (List.cons.inj same).2
    exact ⟨rfl, List.prefix_refl _⟩

theorem agrees_scanSlash (cs : List Char) : (scanSlash cs).Agrees ('/' :: cs) := by
  unfold scanSlash
  split
  case h_1 rest => exact agrees_lineComment rest
  case h_2 rest =>
    split
    case h_1 n tail ended => exact agrees_blockComment ended
    case h_2 unended =>
      refine agrees_scanSymbol rfl fun t split => ⟨fun mem => ?_, fun mem => ?_⟩
      · obtain ⟨rest', other, -⟩ := prefix_lineComment split mem
        cases other
      · obtain ⟨body, rest', -, same, ended⟩ := prefix_blockComment split mem
        cases same
        rw [unended] at ended
        cases ended
  case h_3 noLine noBlock =>
    refine agrees_scanSymbol rfl fun t split => ⟨fun mem => ?_, fun mem => ?_⟩
    · obtain ⟨rest, same, -⟩ := prefix_lineComment split mem
      exact noLine rest same
    · obtain ⟨body, rest, -, same, -⟩ := prefix_blockComment split mem
      exact noBlock _ same

/-!
## All scans
-/

/-- Only blanks are found one by one; everything else is taken as the patterns have it. -/
theorem agrees_scan {c : Char} (notBlank : isSpace c = false) (cs : List Char) :
    (scan c cs).Agrees (c :: cs) := by
  unfold scan
  rw [if_neg (Bool.eq_false_iff.1 notBlank)]
  split
  case isTrue digit => exact agrees_scanNumber digit
  case isFalse notDigit =>
  split
  case isTrue quote => exact quote ▸ agrees_scanString cs
  case isFalse notQuote =>
  split
  case isTrue template =>
    simp only [Bool.and_eq_true, decide_eq_true_eq] at template
    obtain ⟨rfl, quote⟩ := template
    obtain ⟨rest, rfl⟩ := List.head?_eq_some_iff.1 quote
    exact agrees_scanTemplate rest
  case isFalse notTemplate =>
  split
  case isTrue start =>
    refine agrees_scanWord start fun t split mem => notTemplate ?_
    obtain ⟨body, -, rfl⟩ := mem_template.1 mem
    obtain ⟨rest, same⟩ := split
    cases same
    rfl
  case isFalse notStart =>
  split
  case isTrue sign => exact sign ▸ agrees_scanLabel cs
  case isFalse notSign =>
  split
  case isTrue slash => exact slash ▸ agrees_scanSlash cs
  case isFalse notSlash =>
    have symbol : Lexeme.initial c = .symbol := by
      simp [Lexeme.initial, notBlank, notDigit, notQuote, notStart, notSign]
    refine agrees_scanSymbol symbol fun t split => ⟨fun mem => ?_, fun mem => ?_⟩
    · obtain ⟨body, -, rfl⟩ := mem_lineComment.1 mem
      exact notSlash (List.cons_prefix_cons.1 split).1.symm
    · obtain ⟨body, -, rfl⟩ := mem_blockComment.1 mem
      exact notSlash (List.cons_prefix_cons.1 split).1.symm

theorem takes_blank {c : Char} (space : isSpace c = true) (cs : List Char) :
    blank.Takes ((c :: cs).takeWhile isSpace) (c :: cs) := by
  have mem : (c :: cs).takeWhile isSpace ∈ language .blank := by
    refine mem_several.2 ⟨?_, takeWhile_class _⟩
    rw [List.takeWhile_cons_of_pos space]
    exact List.cons_ne_nil _ _
  refine takes_of_class (List.takeWhile_prefix _) mem fun q t same split mem => ?_
  obtain rfl : q = .blank := by
    rw [initial_of_isSpace space] at same
    cases q <;> simp [Pattern.initial] at same ⊢
  exact (shorter_or_eq (prefix_takeWhile split (mem_several.1 mem).2)).imp_right fun same =>
    ⟨same, .inl rfl⟩

end LineScript.Lexeme

import LineScript.Proofs.Lexeme.LongestMatch

/-!
# Where block comments end

In a block comment a star is taken together with the character after it, unless that is a slash.  So
of a body without a terminator it is the number of stars at its end that decides: if it is even, the
next terminator ends the comment; if it is odd, the star of that terminator is taken by the one
before it, and the comment goes on up to a later terminator.  If there is none, no comment begins
there, and a division is read (`lexemes_comment`).
-/

namespace LineScript.Lexeme

/-!
## Stars
-/

section Stars

variable {body : List Char}

def starsAtEnd (text : List Char) : Nat :=
  (text.reverse.takeWhile (· = '*')).length

theorem starsAtEnd_append (first rest : List Char) :
    starsAtEnd (first ++ rest) =
      if starsAtEnd rest = rest.length then rest.length + starsAtEnd first
        else starsAtEnd rest := by
  unfold starsAtEnd
  rw [List.reverse_append, List.takeWhile_append, List.length_reverse]
  split
  · rw [List.length_append, List.length_reverse]
  · rfl

theorem starsAtEnd_of_ne {c : Char} (star : c ≠ '*') (rest : List Char) :
    starsAtEnd (c :: rest) = starsAtEnd rest := by
  have none : starsAtEnd [c] = 0 := by simp [starsAtEnd, star]
  rw [← List.singleton_append, starsAtEnd_append, none]
  split
  · rename_i all
    exact all.symm
  · rfl

theorem starsAtEnd_star (rest : List Char) :
    starsAtEnd ('*' :: rest) =
      if starsAtEnd rest = rest.length then rest.length + 1 else starsAtEnd rest :=
  starsAtEnd_append ['*'] rest

theorem starsAtEnd_le (text : List Char) : starsAtEnd text ≤ text.length := by
  rw [← List.length_reverse]
  exact (List.takeWhile_prefix _).length_le

theorem even_starsAtEnd (mem : body ∈ commentBody) : starsAtEnd body % 2 = 0 := by
  refine star_induction mem rfl ?_
  rintro _ (⟨c, star, rfl⟩ | ⟨_, ⟨c, star, rfl⟩, _, ⟨d, slash, rfl⟩, rfl⟩) rest even
  · rw [List.singleton_append, starsAtEnd_of_ne (of_decide_eq_true star)]
    exact even
  · obtain rfl := of_decide_eq_true star
    simp only [List.cons_append, List.nil_append]
    have short := starsAtEnd_le rest
    rw [starsAtEnd_star, List.length_cons]
    by_cases other : d = '*'
    · rw [other, starsAtEnd_star]
      split_ifs <;> omega
    · rw [starsAtEnd_of_ne other, if_neg (by omega)]
      exact even

theorem commentBody_or_star {text : List Char} (noEnd : ¬['*', '/'] <:+: text) :
    text ∈ commentBody ∨ text ++ ['*'] ∈ commentBody := by
  have within (first : List Char) {rest : List Char} (noEnd : ¬['*', '/'] <:+: first ++ rest) :
      ¬['*', '/'] <:+: rest :=
    fun inside => noEnd (inside.trans (List.suffix_append first rest).isInfix)
  have empty : [] ∈ commentBody := Language.nil_mem_kstar _
  fun_induction commentEnd? text with
  | case1 => exact .inl empty
  | case2 c =>
      by_cases star : c = '*'
      · subst star
        exact .inr (commentBody_star (by decide) empty)
      · exact .inl (commentBody_plain star empty)
  | case3 rest => exact absurd (List.prefix_append ['*', '/'] rest).isInfix noEnd
  | case4 d rest slash ih =>
      exact (ih (within ['*', d] noEnd)).imp (commentBody_star slash)
        (commentBody_star slash)
  | case5 c d rest star ih =>
      exact (ih (within [c] noEnd)).imp (commentBody_plain star) (commentBody_plain star)

theorem commentBody_of_stars {text : List Char} (noEnd : ¬['*', '/'] <:+: text) :
    if starsAtEnd text % 2 = 0 then text ∈ commentBody else text ++ ['*'] ∈ commentBody := by
  split
  case isTrue even =>
    refine (commentBody_or_star noEnd).resolve_right fun mem => ?_
    have odd := even_starsAtEnd mem
    have one_more : starsAtEnd (text ++ ['*']) = 1 + starsAtEnd text :=
      (starsAtEnd_append text ['*']).trans (if_pos rfl)
    omega
  case isFalse odd =>
    exact (commentBody_or_star noEnd).resolve_left fun mem => odd (even_starsAtEnd mem)

end Stars

/-!
## Lines further down
-/

/-- What is read of a text that stands some lines further down. -/
def movedDown (lines : Nat) :
    Except LoadError (List (Lexeme × Nat)) → Except LoadError (List (Lexeme × Nat))
  | .ok ls => .ok (ls.map fun l => (l.1, l.2 + lines))
  | .error e => .error { e with line := e.line + lines }

theorem lexFrom_add (n lines : Nat) (cs : List Char) :
    lexFrom (n + lines) cs = movedDown lines (lexFrom n cs) := by
  fun_induction lexFrom n cs with
  | case1 n =>
      rw [lexFrom]
      rfl
  | case2 n c cs l rest found ih =>
      rw [lexFrom_lexeme found, Nat.add_right_comm, ih]
      cases lexFrom (n + l.newlines) rest <;> rfl
  | case3 n c cs k rest found ih => rw [lexFrom_skip found, Nat.add_right_comm, ih]
  | case4 n c cs text found => rw [lexFrom_refused found, movedDown]

/-!
## Comments
-/

theorem lexFrom_comment {cs rest : List Char} {n : Nat} (ended : commentEnd? cs = some (n, rest)) :
    lexFrom 1 ('/' :: '*' :: cs) = movedDown n (lexFrom 1 rest) := by
  have scanned : scan '/' ('*' :: cs) = .skip n rest := by
    change scanSlash ('*' :: cs) = _
    rw [scanSlash, ended]
  rw [lexFrom_skip scanned, lexFrom_add]

theorem lexFrom_unended {cs : List Char} (unended : commentEnd? cs = none) :
    lexFrom 1 ('/' :: '*' :: cs) =
      (lexFrom 1 ('*' :: cs)).map fun ls => (.operator .div, 1) :: ls := by
  have scanned : scan '/' ('*' :: cs) = .lexeme (.operator .div) ('*' :: cs) := by
    change scanSlash ('*' :: cs) = _
    rw [scanSlash, unended]
    rfl
  exact lexFrom_lexeme scanned 1

/-- A comment whose body has no terminator is skipped if the body ends with an even number of stars.
If their number is odd, the comment goes on in what follows, or it is none. -/
theorem lexemes_comment {body : String} (noEnd : ¬['*', '/'] <:+: body.toList) (after : String) :
    lexemes ("/*" ++ body ++ "*/ " ++ after) =
      if starsAtEnd body.toList % 2 = 0 then
        movedDown (body.toList.count '\n') (lexemes after)
      else
        match commentEnd? after.toList with
        | some (lines, rest) => movedDown (body.toList.count '\n' + lines)
            (lexemes (String.ofList rest))
        | none => (lexemes ("*" ++ body ++ "*/ " ++ after)).map fun ls =>
            (.operator .div, 1) :: ls := by
  have whole : ("/*" ++ body ++ "*/ " ++ after).toList =
      '/' :: '*' :: (body.toList ++ '*' :: '/' :: ' ' :: after.toList) := by simp
  have symbols : ("*" ++ body ++ "*/ " ++ after).toList =
      '*' :: (body.toList ++ '*' :: '/' :: ' ' :: after.toList) := by simp
  have shape := commentBody_of_stars noEnd
  rw [lexemes, lexemes, lexemes, whole, symbols]
  split
  case isTrue even =>
    rw [if_pos even] at shape
    rw [lexFrom_comment (commentEnd?_of_mem shape _), lexFrom_blank]
  case isFalse odd =>
    rw [if_neg odd] at shape
    -- The star of the terminator belongs to the body, and the comment goes on behind it.
    have next : commentEnd? (body.toList ++ '*' :: '/' :: ' ' :: after.toList) =
        (commentEnd? after.toList).map fun ended =>
          (ended.1 + body.toList.count '\n', ended.2) := by
      have goes_on := commentEnd?_append shape ('/' :: ' ' :: after.toList)
      rw [List.append_assoc, List.singleton_append, List.count_append,
        commentEnd?_plain (by decide),
        commentEnd?_plain (by decide)] at goes_on
      rw [goes_on, Option.map_map, Option.map_map]
      rfl
    cases ended : commentEnd? after.toList with
    | none =>
        rw [ended] at next
        exact lexFrom_unended next
    | some inner =>
        obtain ⟨lines, rest⟩ := inner
        rw [ended] at next
        have others : lexemes (String.ofList rest) = lexFrom 1 rest :=
          congrArg (lexFrom 1) String.toList_ofList
        rw [lexFrom_comment next, Nat.add_comm, ← others]

/-- One star at the end of the body, and the next terminator is passed. -/
theorem lexemes_comment_passed :
    ¬['*', '/'] <:+: "a\n*".toList ∧
      lexemes ("/*" ++ "a\n*" ++ "*/ " ++ "x\n*/ y") = movedDown 2 (lexemes " y") :=
  ⟨by decide, lexemes_comment (by decide) _⟩

/-- With one star as its body, a comment is not ended by the terminator. -/
theorem comment_unclosed :
    ¬∀ body after : String, ¬['*', '/'] <:+: body.toList → ∀ ls, lexemes after = .ok ls →
      lexemes ("/*" ++ body ++ "*/ " ++ after) =
        .ok (ls.map fun l => (l.1, l.2 + body.toList.count '\n')) := by
  intro claim
  have read : lexemes "x" = .ok [(.name "x", 1)] := by decide +kernel
  have unread : lexemes "/***/ x" ≠ .ok [(.name "x", 1)] := by decide +kernel
  exact unread (claim "*" "x" (by decide) _ read)

end LineScript.Lexeme

import LineScript.Proofs.Lexeme.Scanning
import LineScript.Proofs.Nesting.InStep
import LineScript.Proofs.Structured.Loading

/-!
# What a loaded program is made of

`Draft.Adds` lists what reading a lexeme can do to a draft.  Whatever it is, the tokens of the draft
stay those of the lexemes that were read: no lexeme is lost or read twice, and none but line breaks,
labels and the `;` between statements leaves no token (`Draft.spelled_addAll`).  With what
`Program.Balanced` says of braces this describes every program that a script is loaded as
(`Program.faithful_of_load`).
-/

namespace LineScript

namespace TokenKind

def endsValue : TokenKind → Bool
  | .literal _ | .template _ | .name _ | .bracket _ .closing => true
  | _ => false

def isRead : TokenKind → Bool
  | .literal (.function _) | .signal _ => false
  | _ => true

/-- How a `-` and a `(` are meant is decided by the token before on the line. -/
def Suits (previous : Option TokenKind) : TokenKind → Prop
  | .operator .sub => previous.any endsValue = true
  | .operator .negate => previous.any endsValue = false
  | .bracket .call .opening => previous.any (fun k => k.name?.isSome) = true
  | .bracket .paren .opening => previous.any (fun k => k.name?.isSome) = false
  | _ => True

theorem Suits.sub_iff {k : TokenKind} {previous : Option TokenKind} (suits : k.Suits previous)
    (minus : k.lexeme = .operator .sub) :
    k = .operator .sub ↔ previous.any endsValue = true := by
  cases k with
  | operator op =>
      cases op with
      | sub => exact ⟨fun _ => suits, fun _ => rfl⟩
      | negate =>
          have other : previous.any endsValue = false := suits
          simp [other]
      | _ => simp [lexeme] at minus
  | literal v => cases v <;> cases minus
  | bracket b side => cases b <;> cases side <;> cases minus
  | _ => cases minus

theorem Suits.call_iff {k : TokenKind} {previous : Option TokenKind} (suits : k.Suits previous)
    (opening : k.lexeme = .openParen) :
    k = .bracket .call .opening ↔ previous.any (fun k => k.name?.isSome) = true := by
  cases k with
  | bracket b side =>
      cases b with
      | call =>
          cases side with
          | opening => exact ⟨fun _ => suits, fun _ => rfl⟩
          | closing => cases opening
      | paren =>
          cases side with
          | opening =>
              have other : previous.any (fun k => k.name?.isSome) = false := suits
              simp [other]
          | closing => cases opening
      | scope => cases side <;> cases opening
  | literal v => cases v <;> cases opening
  | operator op => cases op <;> cases opening
  | _ => cases opening

end TokenKind

def Line.Suited (l : Line) : Prop :=
  ∀ before k after, l.kinds = before ++ k :: after → k.Suits before.getLast?

theorem Line.suited_empty : ({} : Line).Suited := by
  intro before k after same
  simp [Line.kinds] at same

theorem Line.Suited.append {l : Line} (suited : l.Suited) {t : Token}
    (suits : t.kind.Suits l.kinds.getLast?) : (l.append t).Suited := by
  intro before k after same
  rw [Line.kinds_append] at same
  rcases List.eq_nil_or_concat after with rfl | ⟨after, last, rfl⟩
  · obtain ⟨rfl, rfl⟩ := List.append_singleton_inj.1 same
    exact suits
  · rw [List.concat_eq_append, ← List.cons_append, ← List.append_assoc] at same
    exact suited before k after (List.append_singleton_inj.1 same).1

structure Line.Numbered (l : Line) : Prop where
  refs : l.refs = List.range l.nextRef

theorem Line.numbered_empty : ({} : Line).Numbered := ⟨rfl⟩

theorem Line.Numbered.append {l : Line} (numbered : l.Numbered) (t : Token) :
    (l.append t).Numbered where
  refs := by
    rw [refs_append, numbered.refs]
    exact List.range_succ.symm

def braceDepth? : Nat → List TokenKind → Option Nat
  | depth, [] => some depth
  | depth, .bracket .scope .opening :: rest => braceDepth? (depth + 1) rest
  | 0, .bracket .scope .closing :: _ => none
  | depth + 1, .bracket .scope .closing :: rest => braceDepth? depth rest
  | depth, _ :: rest => braceDepth? depth rest

theorem braceDepth?_append (depth : Nat) (ks ks' : List TokenKind) :
    braceDepth? depth (ks ++ ks') = (braceDepth? depth ks).bind (braceDepth? · ks') := by
  fun_induction braceDepth? depth ks with
  | case1 => rfl
  | _ => simp_all [braceDepth?]

theorem braceDepth?_plain {k : TokenKind} (plain : k.isScopeBracket = false) (depth : Nat) :
    braceDepth? depth [k] = some depth := by
  cases k with
  | bracket b side =>
      cases b with
      | scope => cases plain
      | _ => simp [braceDepth?]
  | _ => simp [braceDepth?]

theorem Bracket.isScopeBracket_of_ne {b : Bracket} (round : b ≠ .scope) (side : Side) :
    (TokenKind.bracket b side).isScopeBracket = false := by
  cases b with
  | scope => exact absurd rfl round
  | _ => rfl

/-- The lexemes that become tokens, from a place where some parentheses are open: all but line
breaks, labels, and the `;` outside of parentheses. -/
def Lexeme.kept : Nat → List (Lexeme × Nat) → List (Lexeme × Nat)
  | _, [] => []
  | depth, (.newline, _) :: rest => kept depth rest
  | depth, (.label _, _) :: rest => kept depth rest
  | 0, (.semicolon, _) :: rest => kept 0 rest
  | depth + 1, (.semicolon, n) :: rest => (.semicolon, n) :: kept (depth + 1) rest
  | depth, (.openParen, n) :: rest => (.openParen, n) :: kept (depth + 1) rest
  | depth, (.closeParen, n) :: rest => (.closeParen, n) :: kept (depth - 1) rest
  | depth, l :: rest => l :: kept depth rest

theorem Lexeme.kept_lexeme {k : TokenKind} (plain : ∀ b side, k ≠ .bracket b side) {depth : Nat}
    (inside : k = .semicolon → depth ≠ 0) (n : Nat) (rest : List (Lexeme × Nat)) :
    kept depth ((k.lexeme, n) :: rest) = (k.lexeme, n) :: kept depth rest := by
  cases k with
  | literal v => cases v <;> simp [TokenKind.lexeme, kept]
  | operator op => cases op <;> simp [TokenKind.lexeme, kept]
  | bracket b side => exact absurd rfl (plain b side)
  | semicolon =>
      cases depth with
      | zero => exact absurd rfl (inside rfl)
      | succ depth => simp [TokenKind.lexeme, kept]
  | _ => simp [TokenKind.lexeme, kept]

theorem Lexeme.mem_of_mem_kept {depth : Nat} {ls : List (Lexeme × Nat)} {l : Lexeme × Nat}
    (member : l ∈ kept depth ls) : l ∈ ls := by
  fun_induction kept depth ls <;> simp_all <;> grind

theorem TokenKind.lexeme_openBrace : TokenKind.openBrace.lexeme = .openBrace := rfl

theorem TokenKind.lexeme_closeBrace : TokenKind.closeBrace.lexeme = .closeBrace := rfl

theorem TokenKind.lexeme_opening {b : Bracket} (round : b ≠ .scope) :
    (TokenKind.bracket b .opening).lexeme = .openParen := by
  cases b with
  | scope => exact absurd rfl round
  | _ => rfl

theorem TokenKind.lexeme_closing {b : Bracket} (round : b ≠ .scope) :
    (TokenKind.bracket b .closing).lexeme = .closeParen := by
  cases b with
  | scope => exact absurd rfl round
  | _ => rfl

def Program.tokens (p : Program) : List Token :=
  p.lines.flatMap Line.tokens

def Token.spelled (t : Token) : Lexeme × Nat :=
  (t.kind.lexeme, t.line)

/-!
## Reading a lexeme
-/

namespace Draft

variable {s s' : Draft} {n : Nat} {l : Lexeme}

def withBraces (s : Draft) (braces : List Nat) : Draft :=
  { s with braces }

def withParens (s : Draft) (parens : List (Bracket × Nat)) : Draft :=
  { s with parens }

def mark (s : Draft) (name : String) : Draft :=
  { s with labels := s.labels ++ [(name, s.lines.length)] }

def tokens (s : Draft) : List Token :=
  s.lines.flatMap Line.tokens ++ s.current.tokens

@[simp] theorem tokens_put (s : Draft) (k : TokenKind) (n : Nat) :
    (s.put k n).tokens = s.tokens ++ [.new k s.nextId n] := by
  simp [tokens, put]

@[simp] theorem tokens_closeLine (s : Draft) : s.closeLine.tokens = s.tokens := by
  unfold closeLine
  split
  · rfl
  · simp only [tokens, List.flatMap_append, List.flatMap_singleton]
    exact List.append_nil _

@[simp] theorem tokens_withBraces (s : Draft) (braces : List Nat) :
    (s.withBraces braces).tokens = s.tokens := rfl

@[simp] theorem tokens_withParens (s : Draft) (parens : List (Bracket × Nat)) :
    (s.withParens parens).tokens = s.tokens := rfl

@[simp] theorem tokens_mark (s : Draft) (name : String) : (s.mark name).tokens = s.tokens := rfl

@[simp] theorem parens_put (s : Draft) (k : TokenKind) (n : Nat) :
    (s.put k n).parens = s.parens := rfl

@[simp] theorem parens_closeLine (s : Draft) : s.closeLine.parens = s.parens := by
  unfold closeLine
  split <;> rfl

@[simp] theorem parens_withBraces (s : Draft) (braces : List Nat) :
    (s.withBraces braces).parens = s.parens := rfl

@[simp] theorem parens_withParens (s : Draft) (parens : List (Bracket × Nat)) :
    (s.withParens parens).parens = parens := rfl

@[simp] theorem parens_mark (s : Draft) (name : String) : (s.mark name).parens = s.parens := rfl

@[simp] theorem braces_closeLine (s : Draft) : s.closeLine.braces = s.braces := by
  unfold closeLine
  split <;> rfl

@[simp] theorem nextId_closeLine (s : Draft) : s.closeLine.nextId = s.nextId := by
  unfold closeLine
  split <;> rfl

@[simp] theorem labels_closeLine (s : Draft) : s.closeLine.labels = s.labels := by
  unfold closeLine
  split <;> rfl

@[simp] theorem previous_closeLine (s : Draft) : s.closeLine.previous = none := by
  unfold closeLine
  split <;> rfl

def Remembers (s : Draft) : Prop :=
  s.previous = s.current.kinds.getLast?

theorem Remembers.closeLine (s : Draft) : s.closeLine.Remembers := by
  rw [Remembers, previous_closeLine, Line.kinds, s.current_closeLine]
  rfl

theorem Remembers.put (s : Draft) (k : TokenKind) (n : Nat) : (s.put k n).Remembers := by
  simp [Remembers, Draft.put, Token.new]

theorem afterValue_eq (s : Draft) : s.afterValue = s.previous.any TokenKind.endsValue := by
  unfold afterValue
  cases s.previous with
  | none => rfl
  | some k =>
      cases k with
      | bracket b side => cases side <;> rfl
      | _ => rfl

theorem afterName_eq (s : Draft) : s.afterName = s.previous.any fun k => k.name?.isSome := by
  unfold afterName
  cases s.previous with
  | none => rfl
  | some k => cases k <;> rfl

def parenHere (s : Draft) : Bracket :=
  if s.afterName then .call else .paren

theorem parenHere_ne_scope (s : Draft) : s.parenHere ≠ .scope := by
  unfold parenHere
  split <;> decide

theorem suits_parenHere (s : Draft) :
    (TokenKind.bracket s.parenHere .opening).Suits s.previous := by
  unfold parenHere
  split
  · rename_i name
    rw [afterName_eq] at name
    exact name
  · rename_i other
    rw [afterName_eq, Bool.not_eq_true] at other
    exact other

/-- What reading a lexeme can do to a draft. -/
inductive Adds (s : Draft) (n : Nat) : Lexeme → Draft → Prop where
  /-- A statement ends. -/
  | ends {l : Lexeme} (outside : s.parens = []) (separator : l = .newline ∨ l = .semicolon) :
      Adds s n l s.closeLine
  /-- A line break between parentheses is passed over. -/
  | skips (inside : s.parens ≠ []) : Adds s n .newline s
  | marks (name : String) : Adds s n (.label name) (s.closeLine.mark name)
  | opensBlock (outside : s.parens = []) : Adds s n .openBrace
      ((s.withBraces (n :: s.braces)).put .openBrace n).closeLine
  | closesBlock {b : Nat} {bs : List Nat} (outside : s.parens = []) (braces : s.braces = b :: bs) :
      Adds s n .closeBrace ((s.withBraces bs).closeLine.put .closeBrace n).closeLine
  | opensParen : Adds s n .openParen
      ((s.withParens ((s.parenHere, n) :: s.parens)).put (.bracket s.parenHere .opening) n)
  | closesParen {b : Bracket} {i : Nat} {parens : List (Bracket × Nat)}
      (open_ : s.parens = (b, i) :: parens) (round : b ≠ .scope) : Adds s n .closeParen
        ((s.withParens parens).put (.bracket b .closing) n)
  /-- Any other lexeme becomes a token. -/
  | puts {k : TokenKind} {l : Lexeme} (lexeme : k.lexeme = l)
      (plain : ∀ b side, k ≠ .bracket b side)
      (read : k.isRead = true) (suits : k.Suits s.previous)
      (inside : k = .semicolon → s.parens ≠ []) : Adds s n l (s.put k n)

theorem Matched.adds (matched : s.Matched) (scannable : l.Scannable) (added : s.add l n = .ok s') :
    s.Adds n l s' := by
  cases l with
  | newline =>
      cases added
      split
      · rename_i outside
        exact .ends (by simpa using outside) (.inl rfl)
      · rename_i inside
        exact .skips (by simpa using inside)
  | semicolon =>
      cases added
      split
      · rename_i outside
        exact .ends (by simpa using outside) (.inr rfl)
      · rename_i inside
        exact .puts (k := .semicolon) rfl (by simp) rfl trivial fun _ => by simpa using inside
  | label name =>
      simp only [Draft.add] at added
      split at added
      · cases added
      · cases added
        exact .marks name
  | openBrace =>
      simp only [Draft.add, requireNoParen] at added
      split at added
      · rename_i outside
        cases added
        exact .opensBlock outside
      · cases added
  | closeBrace =>
      simp only [Draft.add, requireNoParen] at added
      split at added
      · rename_i outside
        cases braces : s.braces with
        | nil => simp [braces, throw, throwThe, MonadExceptOf.throw] at added
        | cons b bs =>
            simp only [braces] at added
            cases added
            exact .closesBlock outside braces
      · cases added
  | openParen =>
      cases added
      exact .opensParen
  | closeParen =>
      simp only [Draft.add] at added
      split at added
      · cases added
      · rename_i open_
        cases added
        exact .closesParen open_ (matched.parens (_, _)
          (by rw [open_]; exact List.mem_cons_self ..))
  | operator op =>
      cases op with
      | sub =>
          cases added
          cases value : s.afterValue with
          | true =>
              rw [afterValue_eq] at value
              exact .puts (k := .operator .sub) rfl (by simp) rfl value (by simp)
          | false =>
              rw [afterValue_eq] at value
              exact .puts (k := .operator .negate) rfl (by simp) rfl value (by simp)
      | negate =>
          rcases scannable with spelled | ⟨x, same⟩
          · exact absurd rfl spelled
          · cases same
      | _ =>
          cases added
          exact .puts (k := .operator _) rfl (by simp) rfl trivial (by simp)
  | float x =>
      cases added
      exact .puts (k := .literal (.float x)) rfl (by simp) rfl trivial (by simp)
  | integer i =>
      cases added
      exact .puts (k := .literal (.int i)) rfl (by simp) rfl trivial (by simp)
  | string t =>
      cases added
      exact .puts (k := .literal (.string t)) rfl (by simp) rfl trivial (by simp)
  | bool b =>
      cases added
      exact .puts (k := .literal (.bool b)) rfl (by simp) rfl trivial (by simp)
  | null =>
      cases added
      exact .puts (k := .literal .null) rfl (by simp) rfl trivial (by simp)
  | template t =>
      cases added
      exact .puts (k := .template t) rfl (by simp) rfl trivial (by simp)
  | name t =>
      cases added
      exact .puts (k := .name t) rfl (by simp) rfl trivial (by simp)
  | type t =>
      cases added
      exact .puts (k := .type t) rfl (by simp) rfl trivial (by simp)
  | keyword k =>
      cases added
      exact .puts (k := .keyword k) rfl (by simp) rfl trivial (by simp)
  | comma =>
      cases added
      exact .puts (k := .comma) rfl (by simp) rfl trivial (by simp)

/-!
## Nothing is lost
-/

theorem Adds.spelled (adds : s.Adds n l s') (rest : List (Lexeme × Nat)) :
    s'.tokens.map Token.spelled ++ Lexeme.kept s'.parens.length rest =
      s.tokens.map Token.spelled ++ Lexeme.kept s.parens.length ((l, n) :: rest) := by
  cases adds with
  | ends outside separator =>
      rcases separator with rfl | rfl <;> simp [outside, Lexeme.kept]
  | skips inside => simp [Lexeme.kept]
  | marks name => simp [Lexeme.kept]
  | opensBlock outside =>
      simp [outside, Lexeme.kept, Token.spelled, Token.new, TokenKind.lexeme_openBrace]
  | closesBlock outside braces =>
      simp [outside, Lexeme.kept, Token.spelled, Token.new, TokenKind.lexeme_closeBrace]
  | opensParen =>
      simp [Lexeme.kept, Token.spelled, Token.new, TokenKind.lexeme_opening s.parenHere_ne_scope]
  | closesParen open_ round =>
      simp [open_, Lexeme.kept, Token.spelled, Token.new, TokenKind.lexeme_closing round]
  | @puts k _ lexeme plain read suits inside =>
      subst lexeme
      have within : k = .semicolon → s.parens.length ≠ 0 := by simpa using inside
      have kept := Lexeme.kept_lexeme plain within n rest
      simp [kept, Token.spelled, Token.new]

theorem Matched.addAll_keeps {ls : List (Lexeme × Nat)} {P : Draft → List (Lexeme × Nat) → Prop}
    (matched : s.Matched) (scannable : ∀ l ∈ ls, l.1.Scannable)
    (keeps : ∀ s s' l n rest, Adds s n l s' → P s ((l, n) :: rest) → P s' rest)
    (start : P s ls) (added : s.addAll ls = .ok s') : P s' [] := by
  induction ls generalizing s with
  | nil =>
      cases added
      exact start
  | cons first rest ih =>
      obtain ⟨l, n⟩ := first
      rw [Draft.addAll] at added
      cases step : s.add l n with
      | error e => simp [step] at added
      | ok s₁ =>
          rw [step] at added
          have adds := matched.adds (scannable (l, n) (by simp)) step
          exact ih (matched.add step) (fun l member => scannable l (List.mem_cons_of_mem _ member))
            (keeps s s₁ l n rest adds start) added

theorem spelled_addAll {ls : List (Lexeme × Nat)} (matched : s.Matched)
    (scannable : ∀ l ∈ ls, l.1.Scannable) (added : s.addAll ls = .ok s') :
    s'.tokens.map Token.spelled = s.tokens.map Token.spelled ++ Lexeme.kept s.parens.length ls := by
  have all := matched.addAll_keeps (P := fun d rest =>
    d.tokens.map Token.spelled ++ Lexeme.kept d.parens.length rest =
      s.tokens.map Token.spelled ++ Lexeme.kept s.parens.length ls) scannable
    (fun _ _ _ _ rest adds same => (adds.spelled rest).trans same) rfl added
  rwa [Lexeme.kept, List.append_nil] at all

/-!
## The shape of lines
-/

/-- Tokens are numbered in their order, the last tokens suit those before them, labels name lines
that are there or the next one, and the open braces are those not closed yet. -/
structure InOrder (s : Draft) : Prop where
  ids : s.tokens.map Token.id = List.range s.nextId
  read : ∀ t ∈ s.tokens, t.kind.isRead = true
  suited : ∀ line ∈ s.lines, line.Suited
  growing : s.current.Suited
  remembers : s.Remembers
  numbered : ∀ line ∈ s.lines, line.Numbered
  counting : s.current.Numbered
  marked : ∀ mark ∈ s.labels, mark.2 ≤ s.lines.length
  braces : braceDepth? 0 (s.tokens.map Token.kind) = some s.braces.length

theorem inOrder_empty : ({} : Draft).InOrder where
  ids := rfl
  read := nofun
  suited := nofun
  growing := Line.suited_empty
  remembers := rfl
  numbered := nofun
  counting := Line.numbered_empty
  marked := nofun
  braces := rfl

theorem InOrder.withParens (order : s.InOrder) (parens : List (Bracket × Nat)) :
    (s.withParens parens).InOrder :=
  ⟨order.ids, order.read, order.suited, order.growing, order.remembers, order.numbered,
    order.counting, order.marked, order.braces⟩

theorem InOrder.put (order : s.InOrder) {k : TokenKind} {braces : List Nat} (read : k.isRead = true)
    (suits : k.Suits s.previous) (depth : braceDepth? s.braces.length [k] = some braces.length)
    (n : Nat) : ((s.withBraces braces).put k n).InOrder where
  ids := by
    rw [tokens_put, tokens_withBraces, List.map_append, order.ids]
    exact List.range_succ.symm
  read := by
    intro t member
    rw [tokens_put, tokens_withBraces, List.mem_append, List.mem_singleton] at member
    rcases member with member | rfl
    · exact order.read t member
    · exact read
  suited := order.suited
  growing := order.growing.append (order.remembers ▸ suits)
  remembers := .put _ k n
  numbered := order.numbered
  counting := order.counting.append _
  marked := order.marked
  braces := by
    rw [tokens_put, tokens_withBraces, List.map_append, braceDepth?_append, order.braces]
    exact depth

theorem InOrder.putPlain (order : s.InOrder) {k : TokenKind} (read : k.isRead = true)
    (suits : k.Suits s.previous) (plain : k.isScopeBracket = false) (n : Nat) :
    (s.put k n).InOrder := by
  exact order.put read suits (braceDepth?_plain plain s.braces.length) n

theorem InOrder.closeLine (order : s.InOrder) : s.closeLine.InOrder := by
  by_cases empty : s.current.isEmpty = true
  · have remembers := Remembers.closeLine s
    rw [Draft.closeLine, if_pos empty] at remembers ⊢
    exact ⟨order.ids, order.read, order.suited, order.growing, remembers, order.numbered,
      order.counting, order.marked, order.braces⟩
  · have closed : s.closeLine =
        { s with lines := s.lines ++ [s.current], current := {}, previous := none } := by
      rw [Draft.closeLine, if_neg empty]
    have kept := s.tokens_closeLine
    rw [closed] at kept ⊢
    refine ⟨kept ▸ order.ids, kept ▸ order.read, ?_, Line.suited_empty, rfl, ?_,
      Line.numbered_empty, ?_, kept ▸ order.braces⟩
    · intro line member
      rcases List.mem_append.1 member with member | member
      · exact order.suited line member
      · exact List.mem_singleton.1 member ▸ order.growing
    · intro line member
      rcases List.mem_append.1 member with member | member
      · exact order.numbered line member
      · exact List.mem_singleton.1 member ▸ order.counting
    · intro mark member
      rw [List.length_append]
      exact Nat.le_add_right_of_le (order.marked mark member)

theorem Adds.inOrder (adds : s.Adds n l s') (order : s.InOrder) : s'.InOrder := by
  cases adds with
  | ends _ _ => exact order.closeLine
  | skips _ => exact order
  | marks name =>
      have closed := order.closeLine
      refine ⟨closed.ids, closed.read, closed.suited, closed.growing, closed.remembers,
        closed.numbered, closed.counting, ?_, closed.braces⟩
      intro mark member
      rcases List.mem_append.1 member with member | member
      · exact closed.marked mark member
      · rw [List.mem_singleton.1 member]
        exact Nat.le_refl _
  | opensBlock _ => exact (order.put (k := .openBrace) rfl trivial rfl n).closeLine
  | @closesBlock _ rest _ braces =>
      have same : (s.withBraces rest).closeLine = s.closeLine.withBraces rest :=
        s.closeLine_withBraces rest
      rw [same]
      refine (order.closeLine.put (k := .closeBrace) rfl trivial ?_ n).closeLine
      rw [braces_closeLine, braces]
      rfl
  | opensParen =>
      exact (order.withParens ((s.parenHere, n) :: s.parens)).putPlain rfl s.suits_parenHere
        (Bracket.isScopeBracket_of_ne s.parenHere_ne_scope .opening) n
  | @closesParen b _ parens _ round =>
      exact (order.withParens parens).putPlain rfl (by cases b <;> trivial)
        (Bracket.isScopeBracket_of_ne round .closing) n
  | @puts k _ _ plain read suits _ =>
      refine order.putPlain read suits ?_ n
      cases k with
      | bracket b side => exact absurd rfl (plain b side)
      | _ => rfl

theorem InOrder.addAll {ls : List (Lexeme × Nat)} (order : s.InOrder) (matched : s.Matched)
    (scannable : ∀ l ∈ ls, l.1.Scannable) (added : s.addAll ls = .ok s') : s'.InOrder :=
  matched.addAll_keeps (P := fun d _ => d.InOrder) scannable
    (fun _ _ _ _ _ adds order => adds.inOrder order) order added

end Draft

/-!
## Loaded programs
-/

theorem Program.exists_reading {source : String} {p : Program}
    (loaded : Program.load source = .ok p) :
    ∃ ls s, lexemes source = .ok ls ∧ ({} : Draft).addAll ls = .ok s ∧ s.parens = [] ∧
      s.braces = [] ∧ p.lines = s.closeLine.lines ∧ p.labels = s.labels ∧ p.nextId = s.nextId := by
  unfold Program.load at loaded
  cases scanned : lexemes source with
  | error e => simp [scanned] at loaded
  | ok ls =>
      simp only [scanned, Except.bind_eq_bind, Except.bind_ok, Program.ofLexemes] at loaded
      cases read : ({} : Draft).addAll ls with
      | error e => simp [read] at loaded
      | ok s =>
          rw [read, Except.bind_ok] at loaded
          unfold Draft.toProgram at loaded
          split at loaded
          · cases loaded
          · cases loaded
          · rename_i parens braces
            cases loaded
            exact ⟨ls, s, rfl, read, parens, braces, rfl, s.labels_closeLine, s.nextId_closeLine⟩

/-- What a program that was loaded from some lexemes is made of. -/
structure Program.Faithful (p : Program) (ls : List (Lexeme × Nat)) : Prop where
  filled : ∀ line ∈ p.lines, line.kinds ≠ []
  /-- A `{` is the last token of its line. -/
  opening : ∀ line ∈ p.lines, ∀ before after,
    line.kinds = before ++ .openBrace :: after → after = []
  /-- A `}` is alone on its line. -/
  closing : ∀ line ∈ p.lines, ∀ before after,
    line.kinds = before ++ .closeBrace :: after → before = [] ∧ after = []
  balanced : braceDepth? 0 (p.tokens.map Token.kind) = some 0
  ids : p.tokens.map Token.id = List.range p.tokens.length
  nextId : p.nextId = p.tokens.length
  labels : ∀ mark ∈ p.labels, mark.2 ≤ p.lines.length
  minus : ∀ line ∈ p.lines, ∀ before k after, line.kinds = before ++ k :: after →
    k.lexeme = .operator .sub → (k = .operator .sub ↔
      before.getLast?.any TokenKind.endsValue = true)
  calls : ∀ line ∈ p.lines, ∀ before k after, line.kinds = before ++ k :: after →
    k.lexeme = .openParen →
      (k = .bracket .call .opening ↔ before.getLast?.any (fun k => k.name?.isSome) = true)
  read : ∀ t ∈ p.tokens, t.kind.isRead = true
  /-- The tokens of all lines are the lexemes, with their source lines. -/
  spelled : p.tokens.map Token.spelled = Lexeme.kept 0 ls

namespace Line

theorem Edged.opening_last {l : Line} (edged : l.Edged) {before after : List TokenKind}
    (same : l.kinds = before ++ .openBrace :: after) : after = [] := by
  cases edged with
  | plain bare =>
      have := bare .openBrace (by simp [same])
      cases this
  | opening header brace cells bare kind =>
      rw [kinds, cells, List.map_append] at same
      rcases List.eq_nil_or_concat after with rfl | ⟨after, last, rfl⟩
      · rfl
      · rw [List.concat_eq_append, ← List.cons_append, ← List.append_assoc] at same
        have front := (List.append_inj' same rfl).1
        have := bare .openBrace (by simp [front])
        cases this
  | closing close cells kind =>
      rw [kinds, cells, List.map_singleton, kind] at same
      have lone := congrArg List.length same
      have front : before = [] := by
        cases before with
        | nil => rfl
        | cons k before => simp at lone
      rw [front] at same
      cases same

theorem Edged.closing_alone {l : Line} (edged : l.Edged) {before after : List TokenKind}
    (same : l.kinds = before ++ .closeBrace :: after) : before = [] ∧ after = [] := by
  cases edged with
  | plain bare =>
      have := bare .closeBrace (by simp [same])
      cases this
  | opening header brace cells bare kind =>
      have member : TokenKind.closeBrace ∈ l.kinds := by simp [same]
      rw [kinds, cells, List.map_append, List.map_singleton, kind, List.mem_append,
        List.mem_singleton] at member
      rcases member with member | member
      · cases bare _ member
      · cases member
  | closing close cells kind =>
      have lone := congrArg List.length same
      rw [kinds, cells] at lone
      constructor
      · refine List.length_eq_zero_iff.1 ?_
        simp at lone
        omega
      · refine List.length_eq_zero_iff.1 ?_
        simp at lone
        omega

end Line

theorem Program.numbered_of_load {source : String} {p : Program}
    (loaded : Program.load source = .ok p) : ∀ line ∈ p.lines, line.Numbered := by
  obtain ⟨ls, s, scanned, read, -, -, lines, -⟩ := exists_reading loaded
  have scannable := Lexeme.scannable_of_mem scanned
  have order := (Draft.inOrder_empty.addAll Draft.matched_empty scannable read).closeLine
  rw [lines]
  exact order.numbered

/-- A loaded program has the tokens of its script and nothing else, and its lines have
their shape. -/
theorem Program.faithful_of_load {source : String} {p : Program}
    (loaded : Program.load source = .ok p) :
    ∃ ls, lexemes source = .ok ls ∧ p.Faithful ls := by
  obtain ⟨ls, s, scanned, read, parens, braces, lines, labels, nextId⟩ := exists_reading loaded
  have balanced := balanced_of_load loaded
  have scannable := Lexeme.scannable_of_mem scanned
  have order := (Draft.inOrder_empty.addAll Draft.matched_empty scannable read).closeLine
  have tokens : s.closeLine.tokens = p.tokens := by
    simp [Draft.tokens, Program.tokens, Line.tokens, lines, s.current_closeLine]
  have count : p.nextId = p.tokens.length := by
    have sizes := congrArg List.length order.ids
    rw [tokens, List.length_map, List.length_range, s.nextId_closeLine] at sizes
    rw [nextId, sizes]
  refine ⟨ls, scanned, ?_⟩
  constructor
  case filled =>
    intro line member empty
    exact (balanced.loaded line member).filled (List.map_eq_nil_iff.1 empty)
  case opening =>
    intro line member before after same
    exact (balanced.edged line member).opening_last same
  case closing =>
    intro line member before after same
    exact (balanced.edged line member).closing_alone same
  case balanced => rw [← tokens, order.braces, s.braces_closeLine, braces, List.length_nil]
  case ids => rw [← tokens, order.ids, s.nextId_closeLine, ← nextId, count, tokens]
  case nextId => exact count
  case labels =>
    intro mark member
    rw [labels, ← s.labels_closeLine] at member
    rw [lines]
    exact order.marked mark member
  case minus =>
    intro line member before k after same minus
    exact (order.suited line (lines ▸ member) before k after same).sub_iff minus
  case calls =>
    intro line member before k after same opening
    exact (order.suited line (lines ▸ member) before k after same).call_iff opening
  case read =>
    intro t member
    exact order.read t (tokens ▸ member)
  case spelled =>
    rw [← tokens, s.tokens_closeLine, Draft.spelled_addAll Draft.matched_empty scannable read]
    rfl

def drawScript : String :=
  "int n = -1; print(n - 2,\n-n)\n@loop while n < (3) \x7b n += 1 \x7d"

theorem Program.faithful_drawScript :
    ∃ ls, lexemes drawScript = .ok ls ∧ (Machine.programOf drawScript).kinds.length = 5 ∧
      (Machine.programOf drawScript).Faithful ls := by
  have checked : (Program.load drawScript).toOption.isSome = true ∧
      (Machine.programOf drawScript).kinds.length = 5 := by
    decide +kernel
  obtain ⟨isSome, size⟩ := checked
  have loaded : Program.load drawScript = .ok (Machine.programOf drawScript) :=
    Except.eq_ok_getD isSome _
  obtain ⟨ls, scanned, faithful⟩ := Program.faithful_of_load loaded
  exact ⟨ls, scanned, size, faithful⟩

end LineScript

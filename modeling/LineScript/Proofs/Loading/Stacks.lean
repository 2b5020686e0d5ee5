import LineScript.Proofs.Loading.Structure

/-!
# Stacks of the reader

The reader of a script has a stack of open braces and one of open parentheses.  What the tokens of a
part of the script do to such a stack can be told from their kinds (`Draft.Stack`).  So the entry
that one token puts on is taken off at the token before which everything put on in between is gone
(`Draft.Stack.pairs`).
-/

namespace LineScript

theorem braceDepth?_opening (depth : Nat) (ks : List TokenKind) :
    braceDepth? depth (.openBrace :: ks) = braceDepth? (depth + 1) ks := by
  simp [TokenKind.openBrace, braceDepth?]

theorem braceDepth?_closing (depth : Nat) (ks : List TokenKind) :
    braceDepth? (depth + 1) (.closeBrace :: ks) = braceDepth? depth ks := by
  simp [TokenKind.closeBrace, braceDepth?]

theorem braceDepth?_unopened (ks : List TokenKind) : braceDepth? 0 (.closeBrace :: ks) = none := by
  simp [TokenKind.closeBrace, braceDepth?]

theorem braceDepth?_other {k : TokenKind} (opening : k ≠ .openBrace) (closing : k ≠ .closeBrace)
    (depth : Nat) (ks : List TokenKind) : braceDepth? depth (k :: ks) = braceDepth? depth ks := by
  have plain : k.isScopeBracket = false := by
    cases k with
    | bracket b side =>
        cases b with
        | scope =>
            cases side with
            | opening => exact absurd rfl opening
            | closing => exact absurd rfl closing
        | _ => rfl
    | _ => rfl
  rw [← List.singleton_append, braceDepth?_append, braceDepth?_plain plain, Option.bind_some]

namespace Draft

/-- Of the lexemes of a script, the one that becomes the token `i` puts an entry on a stack of the
draft, and the entry stays there until the one that becomes the token `j` takes it off. -/
inductive Pairs {α : Type} (stack : Draft → List α) (ls : List (Lexeme × Nat)) :
    Nat → Nat → Prop where
  | intro {before between after : List (Lexeme × Nat)} {l l' : Lexeme} {n n' : Nat}
      {s s' d d' : Draft} {x : α}
      (lexemes : ls = before ++ (l, n) :: (between ++ (l', n') :: after))
      (read : ({} : Draft).addAll before = .ok s) (put : s.add l n = .ok s')
      (putOn : stack s' = x :: stack s) (inside : s'.addAll between = .ok d)
      (take : d.add l' n' = .ok d') (takenOff : stack d = x :: stack s ∧ stack d' = stack s)
      (stays : ∀ front rest e, between = front ++ rest → s'.addAll front = .ok e →
        x :: stack s <:+ stack e) :
      Pairs stack ls s.nextId d.nextId

variable {s s' : Draft} {l : Lexeme} {n : Nat} {ls : List (Lexeme × Nat)} {α σ : Type}

/-!
## One lexeme
-/

inductive Turns (s s' : Draft) : List TokenKind → Prop where
  | nothing (braces : s'.braces = s.braces) (parens : s'.parens = s.parens) : Turns s s' []
  | plain {k : TokenKind} (other : ∀ b side, k ≠ .bracket b side) (braces : s'.braces = s.braces)
      (parens : s'.parens = s.parens) : Turns s s' [k]
  | opensBlock {i : Nat} (braces : s'.braces = i :: s.braces) (parens : s'.parens = s.parens) :
      Turns s s' [.openBrace]
  | closesBlock {i : Nat} (braces : s.braces = i :: s'.braces) (parens : s'.parens = s.parens) :
      Turns s s' [.closeBrace]
  | opensParen {b : Bracket} {i : Nat} (round : b ≠ .scope) (braces : s'.braces = s.braces)
      (parens : s'.parens = (b, i) :: s.parens) : Turns s s' [.bracket b .opening]
  | closesParen {b : Bracket} {i : Nat} (round : b ≠ .scope) (braces : s'.braces = s.braces)
      (parens : s.parens = (b, i) :: s'.parens) : Turns s s' [.bracket b .closing]

theorem Adds.turns (adds : s.Adds n l s') :
    ∃ ks, s'.tokens = s.tokens ++ ks.map (.new · s.nextId n) ∧ Turns s s' ks := by
  cases adds with
  | ends _ _ => exact ⟨[], by simp, .nothing (by simp) (by simp)⟩
  | skips _ => exact ⟨[], by simp, .nothing rfl rfl⟩
  | marks name => exact ⟨[], by simp, .nothing (by simp [mark]) (by simp)⟩
  | opensBlock _ =>
      exact ⟨[.openBrace], (tokens_closeLine _).trans (tokens_put _ _ _),
        .opensBlock (braces_closeLine _) (by simp)⟩
  | @closesBlock b rest _ braces =>
      have tokens : ((s.withBraces rest).closeLine.put .closeBrace n).closeLine.tokens =
          s.tokens ++ [.new .closeBrace s.nextId n] := by
        rw [tokens_closeLine, tokens_put, tokens_closeLine, tokens_withBraces, nextId_closeLine]
        rfl
      have below : ((s.withBraces rest).closeLine.put .closeBrace n).closeLine.braces = rest :=
        (braces_closeLine _).trans (braces_closeLine _)
      exact ⟨[.closeBrace], tokens, .closesBlock (below.symm ▸ braces) (by simp)⟩
  | opensParen =>
      exact ⟨[.bracket s.parenHere .opening], tokens_put _ _ _,
        .opensParen s.parenHere_ne_scope rfl rfl⟩
  | @closesParen b _ parens open_ round =>
      exact ⟨[.bracket b .closing], tokens_put _ _ _, .closesParen round rfl open_⟩
  | @puts k _ _ plain _ _ _ => exact ⟨[k], tokens_put s k n, .plain plain rfl rfl⟩

theorem Adds.exists_tokens (adds : s.Adds n l s') :
    ∃ new, s'.tokens = s.tokens ++ new ∧ new.length ≤ 1 := by
  obtain ⟨ks, tokens, turns⟩ := adds.turns
  refine ⟨_, tokens, ?_⟩
  rw [List.length_map]
  cases turns <;> simp

/-!
## Following a stack
-/

/-- Tokens leave a stack as it was, put entries on it or take some off: what they make of the shape
of its upper part is the shape of what stands there afterwards. -/
def Follows (shape : List α → σ) (turn : σ → List TokenKind → Option σ) (stack stack' : List α)
    (ks : List TokenKind) : Prop :=
  ∀ inner outer x, stack = inner ++ outer → turn (shape inner) ks = some x →
    ∃ inner', stack' = inner' ++ outer ∧ shape inner' = x

section Follows

variable {shape : List α → σ} {turn : σ → List TokenKind → Option σ} {ks : List TokenKind} {e : α}

theorem follows_same (same : ∀ x, turn x ks = some x) (stack : List α) :
    Follows shape turn stack stack ks := by
  intro inner outer x split turned
  rw [same] at turned
  cases turned
  exact ⟨inner, split, rfl⟩

theorem follows_push (pushed : ∀ inner, turn (shape inner) ks = some (shape (e :: inner)))
    (stack : List α) : Follows shape turn stack (e :: stack) ks := by
  intro inner outer x split turned
  rw [pushed] at turned
  cases turned
  exact ⟨e :: inner, congrArg (e :: ·) split, rfl⟩

theorem follows_pop (unopened : turn (shape []) ks = none)
    (popped : ∀ inner, turn (shape (e :: inner)) ks = some (shape inner)) (stack : List α) :
    Follows shape turn (e :: stack) stack ks := by
  intro inner outer x split turned
  cases inner with
  | nil =>
      rw [unopened] at turned
      cases turned
  | cons first inner =>
      obtain ⟨rfl, rfl⟩ := List.cons.inj split
      rw [popped] at turned
      cases turned
      exact ⟨inner, rfl, rfl⟩

end Follows

structure Stack (α σ : Type) where
  entries : Draft → List α
  shape : List α → σ
  turn : σ → List TokenKind → Option σ
  nil_of_shape (l : List α) : shape l = shape [] → l = []
  turn_nil (x : σ) : turn x [] = some x
  turn_append (x : σ) (ks rest : List TokenKind) :
    turn x (ks ++ rest) = (turn x ks).bind fun y => turn y rest
  follows {s s' : Draft} {ks : List TokenKind} :
    Turns s s' ks → Follows shape turn (entries s) (entries s') ks

namespace Stack

variable (k : Stack α σ)

def Leads (s s' : Draft) (new : List Token) : Prop :=
  Follows k.shape k.turn (k.entries s) (k.entries s') (new.map Token.kind)

theorem Leads.append {s₁ s₂ s₃ : Draft} {new new' : List Token} (first : k.Leads s₁ s₂ new)
    (second : k.Leads s₂ s₃ new') : k.Leads s₁ s₃ (new ++ new') := by
  intro inner outer x split turned
  rw [List.map_append, k.turn_append] at turned
  obtain ⟨middle, turned, later⟩ := Option.bind_eq_some_iff.1 turned
  obtain ⟨inner', split', rfl⟩ := first inner outer middle split turned
  exact second inner' outer x split' later

theorem leads_of_adds (adds : s.Adds n l s') :
    ∃ new, s'.tokens = s.tokens ++ new ∧ k.Leads s s' new := by
  obtain ⟨ks, tokens, turns⟩ := adds.turns
  refine ⟨_, tokens, ?_⟩
  have kinds : (ks.map fun kind => Token.new kind s.nextId n).map Token.kind = ks := by
    rw [List.map_map]
    exact List.map_id ks
  rw [Leads, kinds]
  exact k.follows turns

theorem leads_of_addAll (matched : s.Matched) (scannable : ∀ l ∈ ls, l.1.Scannable)
    (added : s.addAll ls = .ok s') : ∃ new, s'.tokens = s.tokens ++ new ∧ k.Leads s s' new := by
  have all := matched.addAll_keeps (P := fun d _ =>
    ∃ new, d.tokens = s.tokens ++ new ∧ k.Leads s d new)
    scannable ?_ ⟨[], by simp, follows_same k.turn_nil (k.entries s)⟩ added
  · exact all
  · rintro d d' l n rest adds ⟨new, tokens, leads⟩
    obtain ⟨more, tokens', leads'⟩ := k.leads_of_adds adds
    exact ⟨new ++ more, by rw [tokens', tokens, List.append_assoc], leads.append k leads'⟩

theorem leads_of_tokens (matched : s.Matched) (scannable : ∀ l ∈ ls, l.1.Scannable)
    (added : s.addAll ls = .ok s') {new : List Token} (tokens : s'.tokens = s.tokens ++ new) :
    k.Leads s s' new := by
  obtain ⟨new', tokens', leads⟩ := k.leads_of_addAll matched scannable added
  rw [tokens] at tokens'
  rw [List.append_cancel_left tokens']
  exact leads

theorem suffix_entries {front rest : List (Lexeme × Nat)} {d e : Draft} {new : List Token} {x : σ}
    (matched : s.Matched) (scannable : ∀ l ∈ front ++ rest, l.1.Scannable)
    (added : s.addAll (front ++ rest) = .ok d) (tokens : d.tokens = s.tokens ++ new)
    (level : k.turn (k.shape []) (new.map Token.kind) = some x) (partly : s.addAll front = .ok e) :
    k.entries s <:+ k.entries e := by
  rw [addAll_append, partly, Except.bind_ok] at added
  obtain ⟨first, tokens', leads⟩ := k.leads_of_addAll matched
    (fun l member => scannable l (List.mem_append_left _ member)) partly
  obtain ⟨second, tokens'', -⟩ := k.leads_of_addAll (matched.addAll partly)
    (fun l member => scannable l (List.mem_append_right _ member)) added
  rw [tokens, tokens', List.append_assoc] at tokens''
  rw [List.append_cancel_left tokens'', List.map_append, k.turn_append] at level
  obtain ⟨middle, level, -⟩ := Option.bind_eq_some_iff.1 level
  obtain ⟨inner, split, -⟩ := leads [] (k.entries s) middle rfl level
  exact ⟨inner, split.symm⟩

end Stack

theorem Turns.followsBraces {ks : List TokenKind} (turns : Turns s s' ks) :
    Follows List.length braceDepth? s.braces s'.braces ks := by
  cases turns with
  | nothing braces _ =>
      rw [braces]
      exact follows_same (fun _ => rfl) _
  | @plain k other braces _ =>
      have plain : k.isScopeBracket = false := by
        cases k with
        | bracket b side => exact absurd rfl (other b side)
        | _ => rfl
      rw [braces]
      exact follows_same (braceDepth?_plain plain) _
  | opensBlock braces _ =>
      rw [braces]
      exact follows_push (fun inner => braceDepth?_opening inner.length []) _
  | closesBlock braces _ =>
      rw [braces]
      exact follows_pop (braceDepth?_unopened [])
        (fun inner => braceDepth?_closing inner.length []) _
  | opensParen round braces _ =>
      rw [braces]
      exact follows_same (braceDepth?_plain (Bracket.isScopeBracket_of_ne round .opening)) _
  | closesParen round braces _ =>
      rw [braces]
      exact follows_same (braceDepth?_plain (Bracket.isScopeBracket_of_ne round .closing)) _

def braceStack : Stack Nat Nat where
  entries := Draft.braces
  shape := List.length
  turn := braceDepth?
  nil_of_shape _ empty := List.length_eq_zero_iff.1 empty
  turn_nil _ := rfl
  turn_append depth ks rest := braceDepth?_append depth ks rest
  follows := Turns.followsBraces

/-!
## Entries and tokens
-/

structure Becomes (s : Draft) (ls : List (Lexeme × Nat)) (s' : Draft) (a : List Token) (t : Token)
    (before : List (Lexeme × Nat)) (l : Lexeme) (n : Nat) (after : List (Lexeme × Nat))
    (d d' : Draft) : Prop where
  lexemes : ls = before ++ (l, n) :: after
  read : s.addAll before = .ok d
  tokens : d.tokens = a
  add : d.add l n = .ok d'
  tokens' : d'.tokens = a ++ [t]
  rest : d'.addAll after = .ok s'

theorem Matched.exists_becomes (matched : s.Matched) (scannable : ∀ l ∈ ls, l.1.Scannable)
    (added : s.addAll ls = .ok s') {a b : List Token} {t : Token} (tokens : s'.tokens = a ++ t :: b)
    (later : s.tokens.length ≤ a.length) :
    ∃ before l n after d d', Becomes s ls s' a t before l n after d d' := by
  induction ls generalizing s with
  | nil =>
      cases added
      rw [tokens, List.length_append, List.length_cons] at later
      omega
  | cons first rest ih =>
      obtain ⟨l, n⟩ := first
      rw [Draft.addAll] at added
      cases step : s.add l n with
      | error e => simp [step] at added
      | ok s₁ =>
          rw [step] at added
          have adds := matched.adds (scannable (l, n) (by simp)) step
          have onward : ∀ l ∈ rest, l.1.Scannable := fun l member =>
            scannable l (List.mem_cons_of_mem _ member)
          obtain ⟨new, grown, one⟩ := adds.exists_tokens
          by_cases past : s₁.tokens.length ≤ a.length
          · obtain ⟨before, l', n', after, d, d', becomes⟩ :=
              ih (matched.add step) onward added past
            refine ⟨(l, n) :: before, l', n', after, d, d', ?_, ?_, becomes.tokens, becomes.add,
              becomes.tokens', becomes.rest⟩
            · rw [becomes.lexemes]
              rfl
            · rw [addAll_cons step, becomes.read]
          · obtain ⟨more, all, -⟩ := braceStack.leads_of_addAll (matched.add step) onward added
            rw [grown, List.length_append] at past
            rw [all, grown, List.append_assoc] at tokens
            obtain ⟨rfl, tail⟩ := List.append_inj tokens (by omega)
            obtain rfl : new = [t] := by
              cases new with
              | nil => simp at past
              | cons x new =>
                  obtain rfl : new = [] := List.length_eq_zero_iff.1 (by simpa using one)
                  rw [(List.cons.inj tail).1]
            exact ⟨[], l, n, rest, s, s₁, rfl, rfl, rfl, step, grown, added⟩

theorem InOrder.nextId_eq (order : s.InOrder) : s.nextId = s.tokens.length := by
  have sizes := congrArg List.length order.ids
  rw [List.length_map, List.length_range] at sizes
  exact sizes.symm

theorem InOrder.id_eq (order : s.InOrder) {a b : List Token} {t : Token}
    (tokens : s.tokens = a ++ t :: b) : t.id = a.length := by
  have same := congrArg (fun ids => ids[a.length]?) order.ids
  have bound : a.length < s.nextId := by
    rw [order.nextId_eq, tokens]
    simp
  simpa [tokens, List.getElem?_range bound] using same

section Becomes

variable {a : List Token} {t : Token} {before after : List (Lexeme × Nat)} {d d' : Draft}

theorem Becomes.adds (becomes : Becomes s ls s' a t before l n after d d') (matched : s.Matched)
    (scannable : ∀ l ∈ ls, l.1.Scannable) : d.Adds n l d' :=
  (matched.addAll becomes.read).adds (scannable (l, n) (by simp [becomes.lexemes])) becomes.add

theorem Becomes.leads (becomes : Becomes s ls s' a t before l n after d d') (matched : s.Matched)
    (scannable : ∀ l ∈ ls, l.1.Scannable) (k : Stack α σ) : k.Leads d d' [t] := by
  obtain ⟨new, tokens, leads⟩ := k.leads_of_adds (becomes.adds matched scannable)
  rw [becomes.tokens', becomes.tokens] at tokens
  rw [List.append_cancel_left tokens]
  exact leads

theorem Becomes.inOrder (becomes : Becomes s ls s' a t before l n after d d') (matched : s.Matched)
    (scannable : ∀ l ∈ ls, l.1.Scannable) (order : s.InOrder) : d.InOrder ∧ d'.InOrder := by
  have earlier : d.InOrder := order.addAll matched
    (fun l member => scannable l (by simp [becomes.lexemes, member])) becomes.read
  exact ⟨earlier, (becomes.adds matched scannable).inOrder earlier⟩

theorem Becomes.id_eq (becomes : Becomes s ls s' a t before l n after d d') (matched : s.Matched)
    (scannable : ∀ l ∈ ls, l.1.Scannable) (order : s.InOrder) : t.id = d.nextId := by
  obtain ⟨earlier, later⟩ := becomes.inOrder matched scannable order
  rw [later.id_eq becomes.tokens', earlier.nextId_eq, becomes.tokens]

end Becomes

/-- The reader takes off at one token what it put on at another, if what is read in between takes
off only what it puts on. -/
theorem Stack.pairs (k : Stack α σ) (scannable : ∀ l ∈ ls, l.1.Scannable)
    (read : ({} : Draft).addAll ls = .ok s') {a m b : List Token} {t u : Token}
    (tokens : s'.tokens = a ++ t :: (m ++ u :: b)) {x : σ} (one : ∀ l, k.shape l = x → ∃ e, l = [e])
    (opens : k.turn (k.shape []) [t.kind] = some x) (closes : k.turn x [u.kind] = some (k.shape []))
    (level : k.turn (k.shape []) (m.map Token.kind) = some (k.shape [])) :
    Pairs k.entries ls t.id u.id := by
  obtain ⟨before, l, n, rest, s, s₁, first⟩ :=
    matched_empty.exists_becomes scannable read tokens (Nat.zero_le _)
  have matched : s₁.Matched := (matched_empty.addAll first.read).add first.add
  have onward : ∀ l ∈ rest, l.1.Scannable := fun l member =>
    scannable l (by simp [first.lexemes, member])
  obtain ⟨between, l', n', after, d, d', second⟩ :=
    matched.exists_becomes (a := a ++ t :: m) (t := u)
    (b := b) onward first.rest (by simp [tokens]) (by simp [first.tokens'])
  -- One entry comes on top at the first token.
  obtain ⟨new, putOn, rfl⟩ := first.leads matched_empty scannable k [] (k.entries s) x rfl opens
  obtain ⟨e, rfl⟩ := one new rfl
  -- It is on top again before the second one, which takes it off.
  have kept : d.tokens = s₁.tokens ++ m := by simp [second.tokens, first.tokens']
  have inside : ∀ l ∈ between, l.1.Scannable := fun l member =>
    onward l (by simp [second.lexemes, member])
  obtain ⟨rest', top, empty⟩ :=
    k.leads_of_tokens matched inside second.read kept [] (k.entries s₁) _ rfl level
  obtain rfl := k.nil_of_shape _ empty
  rw [List.nil_append, putOn] at top
  obtain ⟨rest', takenOff, empty⟩ := second.leads matched onward k [e] (k.entries s) _ top closes
  obtain rfl := k.nil_of_shape _ empty
  have order := (first.inOrder matched_empty scannable inOrder_empty).2
  rw [first.id_eq matched_empty scannable inOrder_empty, second.id_eq matched onward order]
  have lexemes : ls = before ++ (l, n) :: (between ++ (l', n') :: after) := by
    rw [first.lexemes, second.lexemes]
  refine .intro lexemes first.read first.add putOn second.read second.add ⟨top, takenOff⟩ ?_
  rintro front rest e rfl partly
  have stays := k.suffix_entries matched inside second.read kept level partly
  rwa [putOn] at stays

theorem pairs_of_tokens (scannable : ∀ l ∈ ls, l.1.Scannable)
    (read : ({} : Draft).addAll ls = .ok s')
    {a m b : List Token} {t u : Token} (tokens : s'.tokens = a ++ t :: (m ++ u :: b))
    (opening : t.kind = .openBrace) (closing : u.kind = .closeBrace)
    (level : braceDepth? 0 (m.map Token.kind) = some 0) : Pairs Draft.braces ls t.id u.id := by
  refine braceStack.pairs scannable read tokens (x := 1)
    (fun l => List.length_eq_one_iff.1) ?_ ?_ level
  · rw [opening]
    exact braceDepth?_opening 0 []
  · rw [closing]
    exact braceDepth?_closing 0 []

end Draft

end LineScript

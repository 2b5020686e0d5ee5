import LineScript.Proofs.Nesting.Rewriting

/-!
# Priorities under parentheses

A parenthesis boosts what it encloses once, when it is first reached.  So the priority of a token
can grow only by as many boosts as there are parentheses around it that have not been reached yet.
`Line.Fits` bounds the priorities of a line by this number, and every rewriting of a line keeps the
bound: removing a part whose parentheses are closed in it, putting something else in its place, and
boosting what a parenthesis encloses.
-/

namespace LineScript

structure OpenParen where
  bracket : Bracket
  expanded : Bool
  deriving DecidableEq

def TokenKind.isParen : TokenKind → Bool
  | .bracket .scope _ => false
  | .bracket _ _ => true
  | _ => false

namespace Cell

def parensAfter (c : Cell) (s : List OpenParen) : List OpenParen :=
  match c.token.kind with
  | .bracket .scope _ => s
  | .bracket b .opening => { bracket := b, expanded := c.token.expanded } :: s
  | .bracket _ .closing => s.tail
  | _ => s

def ClosesOwn (s : List OpenParen) (c : Cell) : Prop :=
  ∀ b, b ≠ .scope → c.token.kind = .bracket b .closing →
    ∀ o, s.head?.map OpenParen.bracket = some o → o = b

theorem parensAfter_of_not_isParen {c : Cell} (plain : c.token.kind.isParen = false)
    (s : List OpenParen) : c.parensAfter s = s := by
  unfold parensAfter
  split
  · rfl
  · rename_i b notScope kind
    cases b with
    | scope => exact absurd rfl notScope
    | _ => simp [kind, TokenKind.isParen] at plain
  · rename_i b notScope kind
    cases b with
    | scope => exact absurd rfl notScope
    | _ => simp [kind, TokenKind.isParen] at plain
  · rfl

theorem parensAfter_opening {c : Cell} {b : Bracket} (round : b ≠ .scope)
    (kind : c.token.kind = .bracket b .opening) (s : List OpenParen) :
    c.parensAfter s = { bracket := b, expanded := c.token.expanded } :: s := by
  cases b with
  | scope => exact absurd rfl round
  | _ => simp [parensAfter, kind]

theorem parensAfter_closing {c : Cell} {b : Bracket} (round : b ≠ .scope)
    (kind : c.token.kind = .bracket b .closing)
    (s : List OpenParen) : c.parensAfter s = s.tail := by
  cases b with
  | scope => exact absurd rfl round
  | _ => simp [parensAfter, kind]

theorem paren_cases (c : Cell) :
    c.token.kind.isParen = false ∨ ∃ b side, b ≠ .scope ∧ c.token.kind = .bracket b side := by
  cases kind : c.token.kind with
  | bracket b side =>
      cases b with
      | scope => exact .inl rfl
      | paren => exact .inr ⟨.paren, side, by decide, rfl⟩
      | call => exact .inr ⟨.call, side, by decide, rfl⟩
  | _ => exact .inl rfl

theorem length_parensAfter_le (c : Cell) (s : List OpenParen) :
    (c.parensAfter s).length ≤ s.length + 1 := by
  rcases c.paren_cases with plain | ⟨b, side, round, kind⟩
  · rw [parensAfter_of_not_isParen plain]
    exact Nat.le_succ _
  · cases side with
    | opening =>
        rw [parensAfter_opening round kind]
        exact Nat.le_refl _
    | closing =>
        rw [parensAfter_closing round kind, List.length_tail]
        omega

theorem parensAfter_append (c : Cell) (s outer : List OpenParen) :
    ∃ outer', c.parensAfter (s ++ outer) = c.parensAfter s ++ outer' := by
  rcases c.paren_cases with plain | ⟨b, side, round, kind⟩
  · exact ⟨outer, by rw [parensAfter_of_not_isParen plain, parensAfter_of_not_isParen plain]⟩
  · cases side with
    | opening =>
        exact ⟨outer, by rw [parensAfter_opening round kind, parensAfter_opening round kind]; rfl⟩
    | closing =>
        rw [parensAfter_closing round kind, parensAfter_closing round kind]
        cases s with
        | nil => exact ⟨outer.tail, rfl⟩
        | cons o s => exact ⟨outer, rfl⟩

end Cell

namespace Line

def parensOver (s : List OpenParen) (cells : List Cell) : List OpenParen :=
  cells.foldl (fun s c => c.parensAfter s) s

/-- A property of every cell together with the parentheses around it. -/
def Along (P : List OpenParen → Cell → Prop) : List OpenParen → List Cell → Prop
  | _, [] => True
  | s, c :: cells => P s c ∧ Along P (c.parensAfter s) cells

instance Along.decidable {P : List OpenParen → Cell → Prop} [∀ s c, Decidable (P s c)] :
    (s : List OpenParen) → (cells : List Cell) → Decidable (Along P s cells)
  | _, [] => .isTrue trivial
  | s, c :: cells =>
      have := Along.decidable (P := P) (c.parensAfter s) cells
      inferInstanceAs (Decidable (_ ∧ _))

variable {P Q : List OpenParen → Cell → Prop} {s : List OpenParen} {cells before after : List Cell}

theorem parensOver_append : parensOver s (before ++ after) = parensOver
    (parensOver s before) after :=
  List.foldl_append

@[simp] theorem parensOver_nil : parensOver s [] = s := rfl

@[simp] theorem parensOver_cons (c : Cell) :
    parensOver s (c :: cells) = parensOver (c.parensAfter s) cells := rfl

theorem parensOver_of_plain (plain : ∀ c ∈ cells, c.token.kind.isParen = false) :
    parensOver s cells = s := by
  induction cells with
  | nil => rfl
  | cons c cells ih =>
      rw [parensOver_cons, Cell.parensAfter_of_not_isParen (plain c (by simp))]
      exact ih fun d hd => plain d (List.mem_cons_of_mem _ hd)

theorem along_append :
    Along P s (before ++ after) ↔ Along P s before ∧ Along P (parensOver s before) after := by
  induction before generalizing s with
  | nil => simp [Along]
  | cons c before ih => simp [Along, ih, and_assoc]

theorem Along.imp (all : Along P s cells) (weaker : ∀ s, ∀ c ∈ cells, P s c → Q s c) :
    Along Q s cells := by
  induction cells generalizing s with
  | nil => trivial
  | cons c cells ih =>
      exact ⟨weaker s c (by simp) all.1,
        ih all.2 fun s d hd => weaker s d (List.mem_cons_of_mem _ hd)⟩

theorem Along.and (first : Along P s cells) (second : Along Q s cells) :
    Along (fun s c => P s c ∧ Q s c) s cells := by
  induction cells generalizing s with
  | nil => trivial
  | cons c cells ih => exact ⟨⟨first.1, second.1⟩, ih first.2 second.2⟩

theorem Along.of_mem (all : Along P s cells) {c : Cell} (member : c ∈ cells) : ∃ s, P s c := by
  induction cells generalizing s with
  | nil => cases member
  | cons d cells ih =>
      rcases List.mem_cons.1 member with rfl | member
      · exact ⟨s, all.1⟩
      · exact ih all.2 member

theorem along_of_plain (plain : ∀ c ∈ cells, c.token.kind.isParen = false) :
    Along P s cells ↔ ∀ c ∈ cells, P s c := by
  induction cells with
  | nil => simp [Along]
  | cons c cells ih =>
      have rest := ih fun d hd => plain d (List.mem_cons_of_mem _ hd)
      rw [Along, Cell.parensAfter_of_not_isParen (plain c (by simp)), rest]
      simp

end Line

/-!
## The bound
-/

/-- The parentheses that have not been reached yet. -/
def waiting (s : List OpenParen) : Nat :=
  s.countP fun o => !o.expanded

/-- How far a token can be above the boosts that it has got.  A template leaves additions that act
before everything outside of it. -/
def TokenKind.ceiling : TokenKind → Int
  | .template _ => Priority.template
  | _ => Priority.additive + Priority.boost

theorem TokenKind.basePriority_le_ceiling (k : TokenKind) : k.basePriority ≤ k.ceiling := by
  have low := k.basePriority_le_control
  cases k with
  | template _ => exact Int.le_refl _
  | _ =>
      exact Int.le_trans low (show Priority.control ≤ Priority.additive + Priority.boost by decide)

theorem TokenKind.inert_le_basePriority (k : TokenKind) : Priority.inert ≤ k.basePriority := by
  cases k with
  | operator op => cases op <;> decide
  | keyword k => cases k <;> decide
  | bracket b side => cases b <;> cases side <;> decide
  | _ => simp [basePriority, Priority.inert, Priority.template, Priority.declaration]

theorem TokenKind.ceiling_le (k : TokenKind) : k.ceiling ≤ Priority.additive + Priority.boost := by
  cases k with
  | template _ => exact show Priority.template ≤ Priority.additive + Priority.boost by decide
  | _ => exact Int.le_refl _

/-- The boosts that a cell has got and those that it can still get are at most `n`. -/
structure Cell.Fits (n : Nat) (s : List OpenParen) (c : Cell) : Prop where
  low : Priority.inert ≤ c.token.priority
  high : c.token.priority + Priority.boost * waiting s ≤ Priority.boost * n + c.token.kind.ceiling
  /-- A negation that waits for a power gets the priority below it. -/
  power : c.token.kind = .operator .pow → 0 ≤ c.token.priority
  closes : c.ClosesOwn s

def Line.Fits (n : Nat) : List OpenParen → List Cell → Prop :=
  Line.Along (Cell.Fits n)

theorem waiting_append (s t : List OpenParen) : waiting (s ++ t) = waiting s + waiting t :=
  List.countP_append

@[simp] theorem waiting_cons (b : Bracket) (expanded : Bool) (s : List OpenParen) :
    waiting ({ bracket := b, expanded } :: s) = waiting s + if expanded then 0 else 1 := by
  cases expanded <;> simp [waiting]

theorem Cell.closesOwn_of_plain {c : Cell} (plain : c.token.kind.isParen = false)
    (s : List OpenParen) : c.ClosesOwn s := by
  intro b round kind
  rw [kind] at plain
  cases b with
  | scope => exact absurd rfl round
  | _ => cases plain

namespace Cell.Fits

variable {n : Nat} {s outer : List OpenParen} {c d : Cell}

theorem inner (fits : c.Fits n (s ++ outer)) : c.Fits n s where
  low := fits.low
  high := by
    have := fits.high
    rw [waiting_append] at this
    simp only [Priority.boost] at this ⊢
    omega
  power := fits.power
  closes := by
    intro b round kind o head
    refine fits.closes b round kind o ?_
    cases s with
    | nil => cases head
    | cons first s => exact head

theorem replace (fits : d.Fits n s) (plain : c.token.kind.isParen = false)
    (low : Priority.inert ≤ c.token.priority)
    (room : c.token.priority - c.token.kind.ceiling ≤ d.token.priority - d.token.kind.ceiling)
    (power : c.token.kind = .operator .pow → 0 ≤ c.token.priority) : c.Fits n s where
  low := low
  high := by
    have := fits.high
    omega
  power := power
  closes := closesOwn_of_plain plain s

theorem literal (fits : d.Fits n s) (c : Cell) (value : Value) (id line : Nat) :
    ({ c with token := .literal value id line } : Cell).Fits n s := by
  refine fits.replace rfl (Int.le_refl _) ?_ nofun
  have low := fits.low
  have top := d.token.kind.ceiling_le
  have base : (Token.literal value id line).priority = Priority.inert := rfl
  have own : (Token.literal value id line).kind.ceiling = Priority.additive + Priority.boost := rfl
  rw [base, own]
  omega

theorem boost (pushed : List OpenParen) {b : Bracket}
    (fits : c.Fits n (pushed ++ { bracket := b, expanded := false } :: outer)) {amount : Int}
    (grows : 0 ≤ amount) (most : amount ≤ Priority.boost) :
    (Line.boostCell amount c).Fits n (pushed ++ { bracket := b, expanded := true } :: outer) where
  low := by
    have := fits.low
    simp only [Line.boostCell, Token.boost]
    omega
  high := by
    have := fits.high
    rw [waiting_append, waiting_cons] at this ⊢
    simp only [Line.boostCell, Token.boost, Priority.boost, Bool.false_eq_true, if_true, if_false]
      at this most ⊢
    omega
  power := by
    intro kind
    have := fits.power kind
    simp only [Line.boostCell, Token.boost]
    omega
  closes := by
    intro b' round kind o head
    refine fits.closes b' round kind o ?_
    cases pushed with
    | nil => exact head
    | cons first pushed => exact head

end Cell.Fits

namespace Line.Fits

variable {n : Nat} {s outer : List OpenParen} {cells before used new after : List Cell}

theorem inner (fits : Fits n (s ++ outer) cells) : Fits n s cells := by
  induction cells generalizing s outer with
  | nil => trivial
  | cons c cells ih =>
      refine ⟨fits.1.inner, ?_⟩
      obtain ⟨outer', same⟩ := c.parensAfter_append s outer
      have rest := fits.2
      rw [same] at rest
      exact ih rest

theorem part (fits : Fits n [] (before ++ cells ++ after)) : Fits n [] cells :=
  inner (s := []) (along_append.1 (along_append.1 fits).1).2

theorem splice (fits : Fits n s (before ++ used ++ after))
    (level : ∀ s, parensOver s new = parensOver s used) (fine : ∀ s, Fits n s used → Fits n s new) :
    Fits n s (before ++ new ++ after) := by
  simp only [Fits, along_append, parensOver_append] at fits ⊢
  refine ⟨⟨fits.1.1, fine _ fits.1.2⟩, ?_⟩
  rw [level]
  exact fits.2

theorem splice_literal (fits : Fits n s (before ++ used ++ after)) (some_ : used ≠ [])
    (level : ∀ s, parensOver s used = s) (c : Cell) (value : Value) (id line : Nat) :
    Fits n s (before ++ [{ c with token := .literal value id line }] ++ after) := by
  refine fits.splice (fun s => ?_) fun s inside => ?_
  · rw [level]
    exact parensOver_of_plain (by simp [Token.literal, Token.new, TokenKind.isParen])
  · cases used with
    | nil => exact absurd rfl some_
    | cons d used => exact ⟨inside.1.literal c value id line, trivial⟩

/-- An open parenthesis boosts what it encloses.  The same kind of parentheses is counted to find
where it ends, and those of the other kind are closed in between. -/
theorem boost {b : Bracket} (round : b ≠ .scope) {depth : Nat} (pushed : List OpenParen)
    {inner rest : List Cell} {close : Cell}
    (split : splitClose? b depth cells = some (inner, close, rest))
    (count : pushed.countP (fun o => o.bracket = b) = depth)
    (fits : Fits n (pushed ++ { bracket := b, expanded := false } :: outer) cells) :
    Fits n (pushed ++ { bracket := b, expanded := true } :: outer)
      (inner.map (boostCell Priority.boost) ++ close :: rest) := by
  induction cells generalizing depth pushed inner with
  | nil => cases split
  | cons c cells ih =>
      -- The scan goes on with other parentheses above the one that is boosted.
      have onward : ∀ {depth : Nat} (pushed' : List OpenParen),
          pushed'.countP (fun o => o.bracket = b) = depth →
          (∀ e, c.parensAfter (pushed ++ { bracket := b, expanded := e } :: outer) =
            pushed' ++ { bracket := b, expanded := e } :: outer) →
          (splitClose? b depth cells).map (Prod.map (c :: ·) id) = some (inner, close, rest) →
          Fits n (pushed ++ { bracket := b, expanded := true } :: outer)
            (inner.map (boostCell Priority.boost) ++ close :: rest) := by
        intro depth pushed' count after deeper
        obtain ⟨⟨inner', close', rest'⟩, split', same⟩ := Option.map_eq_some_iff.1 deeper
        simp only [Prod.map_apply, id_eq, Prod.mk.injEq] at same
        obtain ⟨rfl, rfl, rfl⟩ := same
        refine ⟨Cell.Fits.boost pushed fits.1 (by decide) (Int.le_refl _), ?_⟩
        have rest := fits.2
        rw [after] at rest
        have boosted := ih pushed' split' count rest
        rw [← after true] at boosted
        exact boosted
      simp only [splitClose?] at split
      split at split
      · rename_i kind
        exact onward ({ bracket := b, expanded := c.token.expanded } :: pushed) (by simp [count])
          (fun e => by rw [Cell.parensAfter_opening round kind]; rfl) split
      · split at split
        · rename_i kind
          have own := fits.1.closes b round kind
          cases pushed with
          | nil =>
              obtain rfl : depth = 0 := by simpa using count.symm
              cases split
              have close := Cell.Fits.boost [] fits.1 (Int.le_refl 0) (by decide)
              have rest := fits.2
              rw [List.nil_append, Cell.parensAfter_closing round kind] at rest
              refine ⟨by simpa [boostCell, Token.boost] using close, ?_⟩
              rw [List.nil_append, Cell.parensAfter_closing round kind]
              exact rest
          | cons o pushed =>
              have top : o.bracket = b := own o.bracket rfl
              obtain rfl : depth = pushed.countP (fun o => o.bracket = b) + 1 := by
                simpa [top] using count.symm
              exact onward pushed rfl
                (fun e => by rw [Cell.parensAfter_closing round kind]; rfl) split
        · rename_i notOpening notClosing
          rcases c.paren_cases with plain | ⟨b', side, round', kind⟩
          · exact onward pushed count
              (fun e => by rw [Cell.parensAfter_of_not_isParen plain]) split
          · have other : b' ≠ b := by
              rintro rfl
              cases side
              · exact notOpening kind
              · exact notClosing kind
            cases side with
            | opening =>
                exact onward ({ bracket := b', expanded := c.token.expanded } :: pushed)
                  (by simp [count, other])
                  (fun e => by rw [Cell.parensAfter_opening round' kind]; rfl) split
            | closing =>
                have own := fits.1.closes b' round' kind
                cases pushed with
                | nil => exact absurd (own b rfl).symm other
                | cons o pushed =>
                    have top : o.bracket = b' := own o.bracket rfl
                    refine onward pushed ?_
                      (fun e => by rw [Cell.parensAfter_closing round' kind]; rfl) split
                    simpa [top, other] using count

theorem reach {b : Bracket} (round : b ≠ .scope) {opening close : Cell} {inner rest : List Cell}
    (fits : Fits n s (before ++ opening :: after)) (kind : opening.token.kind = .bracket b .opening)
    (new_ : opening.token.expanded = false)
    (split : splitClose? b 0 after = some (inner, close, rest)) :
    Fits n s (before ++ { opening with token := { opening.token with expanded := true } } ::
      (inner.map (boostCell Priority.boost) ++ close :: rest)) := by
  obtain ⟨front, first, behind⟩ := along_append.1 fits
  refine along_append.2 ⟨front, ⟨first.low, first.high, first.power, first.closes⟩, ?_⟩
  rw [Cell.parensAfter_opening round kind, new_] at behind
  rw [Cell.parensAfter_opening round (by exact kind)]
  exact boost round [] split rfl behind

theorem ungroup {b : Bracket} (round : b ≠ .scope) {opening c close : Cell}
    (fits : Fits n s (before ++ [opening, c, close] ++ after))
    (kind : opening.token.kind = .bracket b .opening) (plain : c.token.kind.isParen = false)
    (kindClose : close.token.kind = .bracket b .closing) : Fits n s (before ++ [c] ++ after) := by
  refine fits.splice (fun s => ?_) fun s inside => ?_
  · simp [Cell.parensAfter_opening round kind, Cell.parensAfter_of_not_isParen plain,
      Cell.parensAfter_closing round kindClose]
  · have within := inside.2.1
    rw [Cell.parensAfter_opening round kind] at within
    refine ⟨⟨within.low, ?_, within.power, Cell.closesOwn_of_plain plain s⟩, trivial⟩
    have := within.high
    rw [waiting_cons] at this
    simp only [Priority.boost] at this ⊢
    omega

end Line.Fits

/-!
## Parentheses of loaded programs
-/

namespace Draft

structure Parenthesized (s : Draft) : Prop where
  lines : ∀ line ∈ s.lines, Line.Along Cell.ClosesOwn [] line.cells ∧ line.nextRef ≤ s.nextId
  current : Line.Along Cell.ClosesOwn [] s.current.cells ∧ s.current.nextRef ≤ s.nextId
  /-- Those of the statement being read are the innermost ones. -/
  inner : ∃ older, s.parens.map Prod.fst =
    (Line.parensOver [] s.current.cells).map OpenParen.bracket ++ older

theorem parenthesized_empty : ({} : Draft).Parenthesized where
  lines := by simp
  current := ⟨trivial, Nat.le_refl _⟩
  inner := ⟨[], rfl⟩

namespace Parenthesized

variable {s s' : Draft}

theorem closeLine (fine : s.Parenthesized) : s.closeLine.Parenthesized := by
  unfold Draft.closeLine
  split
  · exact ⟨fine.lines, fine.current, fine.inner⟩
  · refine ⟨?_, ⟨trivial, Nat.zero_le _⟩, ⟨_, rfl⟩⟩
    intro line member
    rcases List.mem_append.1 member with member | member
    · exact fine.lines line member
    · obtain rfl := List.mem_singleton.1 member
      exact fine.current

theorem put (fine : s.Parenthesized) {k : TokenKind} {n : Nat} (parens : List (Bracket × Nat))
    (braces : List Nat) {cell : Cell}
    (made : cell = { ref := s.current.nextRef, token := .new k s.nextId n })
    (own : cell.ClosesOwn (Line.parensOver [] s.current.cells))
    (inner : ∃ older, parens.map Prod.fst =
      (cell.parensAfter (Line.parensOver [] s.current.cells)).map OpenParen.bracket ++ older) :
    (({ s with parens, braces } : Draft).put k n).Parenthesized where
  lines := by
    intro line member
    obtain ⟨closes, drawn⟩ := fine.lines line member
    exact ⟨closes, Nat.le_succ_of_le drawn⟩
  current := by
    refine ⟨?_, Nat.succ_le_succ fine.current.2⟩
    show Line.Along _ _ (s.current.cells ++ [_])
    rw [← made]
    exact Line.along_append.2 ⟨fine.current.1, own, trivial⟩
  inner := by
    show ∃ older, parens.map Prod.fst =
      (Line.parensOver [] (s.current.cells ++ [_])).map OpenParen.bracket ++ older
    rw [← made, Line.parensOver_append]
    exact inner

theorem putPlain (fine : s.Parenthesized) {k : TokenKind} (plain : k.isParen = false) (n : Nat)
    (braces : List Nat) : (({ s with braces } : Draft).put k n).Parenthesized := by
  refine fine.put s.parens braces rfl (Cell.closesOwn_of_plain plain _) ?_
  rw [Cell.parensAfter_of_not_isParen plain]
  exact fine.inner

theorem openParen (fine : s.Parenthesized) {b : Bracket} (round : b ≠ .scope) (n : Nat) :
    (({ s with parens := (b, n) :: s.parens } : Draft).put
      (.bracket b .opening) n).Parenthesized := by
  obtain ⟨older, same⟩ := fine.inner
  refine fine.put _ s.braces rfl nofun ⟨older, ?_⟩
  rw [Cell.parensAfter_opening round rfl, List.map_cons, same]
  rfl

theorem closeParen (fine : s.Parenthesized) {b : Bracket} (round : b ≠ .scope) {n i : Nat}
    {parens : List (Bracket × Nat)} (top : s.parens = (b, i) :: parens) :
    (({ s with parens } : Draft).put (.bracket b .closing) n).Parenthesized := by
  obtain ⟨older, same⟩ := fine.inner
  rw [top, List.map_cons] at same
  refine fine.put _ s.braces rfl ?_ ?_
  · intro b' _ kind o head
    cases kind
    cases opened : Line.parensOver [] s.current.cells with
    | nil => simp [opened] at head
    | cons first rest =>
        rw [opened] at head same
        cases head
        exact (List.cons.inj same).1.symm
  · rw [Cell.parensAfter_closing round rfl]
    cases opened : Line.parensOver [] s.current.cells with
    | nil => exact ⟨parens.map Prod.fst, rfl⟩
    | cons first rest =>
        rw [opened] at same
        exact ⟨older, (List.cons.inj same).2⟩

theorem add (fine : s.Parenthesized) (matched : s.Matched) {lexeme : Lexeme} {n : Nat}
    (added : s.add lexeme n = .ok s') : s'.Parenthesized := by
  cases lexeme with
  | newline =>
      cases added
      split
      · exact fine.closeLine
      · exact fine
  | semicolon =>
      cases added
      split
      · exact fine.closeLine
      · exact fine.putPlain rfl n s.braces
  | label name =>
      simp only [Draft.add] at added
      split at added
      · cases added
      · cases added
        have closed := fine.closeLine
        exact ⟨closed.lines, closed.current, closed.inner⟩
  | openBrace =>
      simp only [Draft.add, requireNoParen] at added
      split at added
      · cases added
        exact (fine.putPlain rfl n _).closeLine
      · cases added
  | closeBrace =>
      simp only [Draft.add, requireNoParen] at added
      split at added
      · cases braces : s.braces with
        | nil => simp [braces, throw, throwThe, MonadExceptOf.throw] at added
        | cons b bs =>
            simp only [braces] at added
            cases added
            have closed : ({ s with braces := bs } : Draft).closeLine.Parenthesized :=
              Parenthesized.closeLine ⟨fine.lines, fine.current, fine.inner⟩
            exact (closed.putPlain rfl n _).closeLine
      · cases added
  | openParen =>
      cases added
      exact fine.openParen (by split <;> decide) n
  | closeParen =>
      simp only [Draft.add] at added
      split at added
      · cases added
      · rename_i b i parens top
        cases added
        exact fine.closeParen (matched.parens (b, i) (by simp [top])) top
  | operator op =>
      cases op <;> cases added <;> exact fine.putPlain rfl n s.braces
  | _ =>
      cases added
      exact fine.putPlain rfl n s.braces

theorem addAll (fine : s.Parenthesized) (matched : s.Matched) {lexemes : List (Lexeme × Nat)}
    (added : s.addAll lexemes = .ok s') : s'.Parenthesized := by
  induction lexemes generalizing s with
  | nil =>
      cases added
      exact fine
  | cons first rest ih =>
      obtain ⟨lexeme, n⟩ := first
      rw [Draft.addAll] at added
      cases step : s.add lexeme n with
      | error e => simp [step] at added
      | ok s₁ =>
          rw [step] at added
          exact ih (fine.add matched step) (matched.add step) added

end Parenthesized

end Draft

namespace Program

/-- Fewer than `n` parentheses of a line are open at each of its tokens. -/
def NestsBelow (p : Program) (n : Nat) : Prop :=
  ∀ line ∈ p.lines, Line.Along (fun s _ => s.length < n) [] line.cells

instance (p : Program) (n : Nat) : Decidable (p.NestsBelow n) :=
  inferInstanceAs (Decidable (∀ line ∈ p.lines, _))

theorem along_length_lt {n : Nat} {s : List OpenParen} {cells : List Cell}
    (room : s.length + cells.length ≤ n) : Line.Along (fun s _ => s.length < n) s cells := by
  induction cells generalizing s with
  | nil => trivial
  | cons c cells ih =>
      have grows := c.length_parensAfter_le s
      rw [List.length_cons] at room
      exact ⟨by omega, ih (by omega)⟩

theorem exists_nestsBelow (p : Program) : ∃ n, p.NestsBelow n := by
  obtain ⟨n, longest⟩ : ∃ n, ∀ line ∈ p.lines, line.cells.length ≤ n := by
    induction p.lines with
    | nil => exact ⟨0, nofun⟩
    | cons line lines ih =>
        obtain ⟨n, longest⟩ := ih
        refine ⟨max line.cells.length n, ?_⟩
        intro other member
        rcases List.mem_cons.1 member with rfl | member
        · exact Nat.le_max_left _ _
        · exact Nat.le_trans (longest other member) (Nat.le_max_right _ _)
  exact ⟨n, fun line member => along_length_lt (by simpa using longest line member)⟩

structure Bounded (p : Program) (n : Nat) : Prop where
  fits : ∀ line ∈ p.lines, Line.Fits n [] line.cells
  drawn : ∀ line ∈ p.lines, line.nextRef ≤ p.nextId

theorem bounded_of_load {source : String} {p : Program} {n : Nat}
    (loaded : Program.load source = .ok p) (nests : p.NestsBelow n) : p.Bounded n := by
  obtain ⟨lexemes, s, read, made⟩ := exists_draft loaded
  have fine := (Draft.parenthesized_empty.addAll Draft.matched_empty read).closeLine
  have lines : p.lines = s.closeLine.lines ∧ p.nextId = s.closeLine.nextId := by
    unfold Draft.toProgram at made
    split at made
    · cases made
    · cases made
    · cases made
      exact ⟨rfl, rfl⟩
  constructor
  · intro line member
    have fresh := ((balanced_of_load loaded).loaded line member).fresh
    have closes := (fine.lines line (lines.1 ▸ member)).1
    refine (closes.and (nests line member)).imp ?_
    rintro s c hc ⟨own, deep⟩
    have untouched := (fresh c hc).1
    refine ⟨?_, ?_, ?_, own⟩
    · rw [untouched]
      exact c.token.kind.inert_le_basePriority
    · have base := c.token.kind.basePriority_le_ceiling
      have few : waiting s ≤ s.length := List.countP_le_length
      rw [untouched]
      simp only [Priority.boost]
      omega
    · intro kind
      rw [untouched, kind]
      decide
  · intro line member
    rw [lines.2]
    exact (fine.lines line (lines.1 ▸ member)).2

end Program

end LineScript

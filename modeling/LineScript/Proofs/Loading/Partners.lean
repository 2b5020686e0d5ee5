import LineScript.Proofs.Editing
import LineScript.Proofs.Loading.Stacks
import LineScript.Proofs.Positions

/-!
# Blocks and their partners

The end of a block is found twice: the reader of a script closes the innermost open brace, and a run
scans the program for the brace that brings a count back to zero.  Both come to the same brace
(`Program.Laminar`), since between a brace and its partner the braces are balanced
(`Program.Partners`).  Of two blocks one lies inside the other or they lie apart.
-/

namespace LineScript

/-!
## Partners
-/

/-- A brace that is closed in the end is closed at one place, where those opened after it are. -/
theorem exists_closing {ks : List TokenKind} {inner depth rest : Nat}
    (ends : braceDepth? (inner + depth + 1) ks = some rest) (below : rest ≤ depth) :
    ∃ mid after, ks = mid ++ .closeBrace :: after ∧ braceDepth? inner mid = some 0 ∧
      braceDepth? depth after = some rest := by
  induction ks generalizing inner with
  | nil =>
      simp only [braceDepth?, Option.some.injEq] at ends
      omega
  | cons k ks ih =>
      by_cases opening : k = .openBrace
      · subst opening
        rw [braceDepth?_opening,
          show inner + depth + 1 + 1 = (inner + 1) + depth + 1 by omega] at ends
        obtain ⟨mid, after, rfl, level, later⟩ := ih ends
        exact ⟨.openBrace :: mid, after, rfl, by rw [braceDepth?_opening, level], later⟩
      · by_cases closing : k = .closeBrace
        · subst closing
          rw [braceDepth?_closing] at ends
          cases inner with
          | zero =>
              rw [Nat.zero_add] at ends
              exact ⟨[], ks, rfl, rfl, ends⟩
          | succ inner =>
              rw [show inner + 1 + depth = inner + depth + 1 by omega] at ends
              obtain ⟨mid, after, rfl, level, later⟩ := ih ends
              exact ⟨.closeBrace :: mid, after, rfl, by rw [braceDepth?_closing, level], later⟩
        · rw [braceDepth?_other opening closing] at ends
          obtain ⟨mid, after, rfl, level, later⟩ := ih ends
          exact ⟨k :: mid, after, rfl, by rw [braceDepth?_other opening closing, level], later⟩

namespace Program

def kindsOf (placed : List (Position × Token)) : List TokenKind :=
  placed.map fun place => place.2.kind

section Scan

variable {pos : Position} {t : Token} (rest : List (Position × Token))

theorem closeFrom_opening (kind : t.kind = .openBrace) (depth : Nat) :
    closeFrom depth ((pos, t) :: rest) = closeFrom (depth + 1) rest := by
  conv_lhs => unfold closeFrom
  rw [if_pos kind]

theorem closeFrom_closing (kind : t.kind = .closeBrace) (depth : Nat) :
    closeFrom (depth + 1 + 1) ((pos, t) :: rest) = closeFrom (depth + 1) rest := by
  simp [closeFrom, kind, TokenKind.openBrace, TokenKind.closeBrace]

theorem closeFrom_here (kind : t.kind = .closeBrace) :
    closeFrom 1 ((pos, t) :: rest) = .ok (some pos) := by
  simp [closeFrom, kind, TokenKind.openBrace, TokenKind.closeBrace]

theorem closeFrom_other (opening : t.kind ≠ .openBrace) (closing : t.kind ≠ .closeBrace)
    (depth : Nat) : closeFrom depth ((pos, t) :: rest) = closeFrom depth rest := by
  conv_lhs => unfold closeFrom
  rw [if_neg opening, if_neg closing]

end Scan

/-- The scan for the end of a block passes over tokens as the count of open braces does. -/
theorem closeFrom_append {mid : List (Position × Token)} {depth rest : Nat}
    (level : braceDepth? depth (kindsOf mid) = some rest) (after : List (Position × Token)) :
    closeFrom (depth + 1) (mid ++ after) = closeFrom (rest + 1) after := by
  induction mid generalizing depth with
  | nil =>
      simp only [kindsOf, List.map_nil, braceDepth?, Option.some.injEq] at level
      rw [level, List.nil_append]
  | cons place mid ih =>
      obtain ⟨pos, t⟩ := place
      simp only [kindsOf, List.map_cons] at level
      rw [List.cons_append]
      by_cases opening : t.kind = .openBrace
      · rw [opening, braceDepth?_opening] at level
        rw [closeFrom_opening _ opening]
        exact ih level
      · by_cases closing : t.kind = .closeBrace
        · rw [closing] at level
          cases depth with
          | zero =>
              rw [braceDepth?_unopened] at level
              cases level
          | succ depth =>
              rw [braceDepth?_closing] at level
              rw [closeFrom_closing _ closing]
              exact ih level
        · rw [braceDepth?_other opening closing] at level
          rw [closeFrom_other _ opening closing]
          exact ih level

/-- A `{` and a `}` with balanced braces between them. -/
structure Partners (p : Program) (b c : Position) (t u : Token)
    (front mid back : List (Position × Token)) : Prop where
  placed : p.placed = front ++ (b, t) :: (mid ++ (c, u) :: back)
  opening : t.kind = .openBrace
  closing : u.kind = .closeBrace
  level : braceDepth? 0 (kindsOf mid) = some 0

section Partners

variable {p : Program} {b b' c c' : Position} {t t' u u' : Token}
  {front mid back front' mid' back' : List (Position × Token)}

theorem Partners.blockEnd (partners : p.Partners b c t u front mid back) (distinct : p.Distinct) :
    p.blockEnd b = .ok c := by
  have found : closeFrom 0 ((b, t) :: (mid ++ (c, u) :: back)) = .ok (some c) := by
    rw [closeFrom_opening _ partners.opening, closeFrom_append partners.level,
      closeFrom_here _ partners.closing]
  simp [Program.blockEnd, scanFrom_of_placed distinct partners.placed, found, orFault]

theorem exists_closing_of_placed {rest : List (Position × Token)} {depth : Nat}
    (ends : braceDepth? (depth + 1) (kindsOf rest) = some 0) :
    ∃ mid c u back, rest = mid ++ (c, u) :: back ∧ u.kind = .closeBrace ∧
      braceDepth? 0 (kindsOf mid) = some 0 := by
  rw [← Nat.zero_add depth] at ends
  obtain ⟨ks, after, split, level, -⟩ := exists_closing ends (Nat.zero_le _)
  obtain ⟨mid, more, rfl, rfl, later⟩ := List.map_eq_append_iff.1 split
  obtain ⟨⟨c, u⟩, back, rfl, kind, -⟩ := List.map_eq_cons_iff.1 later
  exact ⟨mid, c, u, back, rfl, kind, level⟩

def Level (p : Program) : Prop :=
  braceDepth? 0 (kindsOf p.placed) = some 0

theorem Level.exists_partners (level : p.Level) (opening : t.kind = .openBrace)
    {after : List (Position × Token)} (same : p.placed = front ++ (b, t) :: after) :
    ∃ c u mid back, p.Partners b c t u front mid back := by
  rw [Level, same, kindsOf, List.map_append, List.map_cons, opening, braceDepth?_append] at level
  obtain ⟨depth, -, ends⟩ := Option.bind_eq_some_iff.1 level
  rw [braceDepth?_opening] at ends
  obtain ⟨mid, c, u, back, rfl, closing, inside⟩ := exists_closing_of_placed ends
  exact ⟨c, u, mid, back, same, opening, closing, inside⟩

theorem Partners.inside (partners : p.Partners b c t u front mid back)
    {x y : List (Position × Token)} (within : mid = x ++ (b', t') :: y)
    (opening : t'.kind = .openBrace) :
    ∃ c' u' mid' z, y = mid' ++ (c', u') :: z ∧
      p.Partners b' c' t' u' (front ++ (b, t) :: x) mid' (z ++ (c, u) :: back) := by
  have level := partners.level
  rw [within, kindsOf, List.map_append, List.map_cons, opening, braceDepth?_append] at level
  obtain ⟨depth, -, ends⟩ := Option.bind_eq_some_iff.1 level
  rw [braceDepth?_opening] at ends
  obtain ⟨mid', c', u', z, rfl, closing, inside⟩ := exists_closing_of_placed ends
  exact ⟨c', u', mid', z, rfl, by simp [partners.placed, within], opening, closing, inside⟩

theorem Partners.closing_unique (partners : p.Partners b c t u front mid back)
    (partners' : p.Partners b c' t' u' front' mid' back') (distinct : p.Distinct) : c = c' := by
  have same := (partners.blockEnd distinct).symm.trans (partners'.blockEnd distinct)
  exact Except.ok.inj same

/-- Of two blocks the first ends before the second begins, or the second ends before the
first does. -/
theorem Partners.laminar (partners : p.Partners b c t u front mid back)
    (partners' : p.Partners b' c' t' u' front' mid' back') (distinct : p.Distinct)
    (before : p.Before b b') : p.Before c b' ∨ p.Before c' c := by
  obtain ⟨s, s', x, y, z, split⟩ := before.exists_placed
  have first : (b, s) ∈ p.placed := by simp [split]
  have second : (b', s') ∈ p.placed := by simp [split]
  obtain rfl : s = t := token_unique distinct first (by simp [partners.placed])
  obtain rfl : s' = t' := token_unique distinct second (by simp [partners'.placed])
  obtain ⟨rfl, rest⟩ := eq_of_placed distinct split partners.placed
  have other : (b', s') ≠ (c, u) := by
    intro same
    have kinds := partners'.opening
    rw [(Prod.mk.inj same).2, partners.closing] at kinds
    cases kinds
  rcases List.append_eq_append_iff.1 rest with ⟨more, rfl, later⟩ | ⟨more, rfl, later⟩
  · -- The second block opens before the first one closes.
    cases more with
    | nil => exact absurd (List.cons.inj later).1 other
    | cons first more =>
        obtain ⟨rfl, rfl⟩ := List.cons.inj later
        obtain ⟨c'', u'', mid'', z', rfl, inner⟩ := partners.inside rfl partners'.opening
        obtain rfl := inner.closing_unique partners' distinct
        have ends : p.placed = (x ++ (b, s) :: (y ++ (b', s') :: mid'')) ++
            (c'', u'') :: (z' ++ (c, u) :: back) := by
          simp [partners.placed]
        exact .inr (before_of_placed ends)
  · cases more with
    | nil => exact absurd (List.cons.inj later).1.symm other
    | cons first more =>
        obtain ⟨rfl, rfl⟩ := List.cons.inj later
        have ends : p.placed = (x ++ (b, s) :: mid) ++ (c, u) :: (more ++ (b', s') :: z) := by
          simp [partners.placed]
        exact .inl (before_of_placed ends)

theorem Partners.closing_ne (partners : p.Partners b c t u front mid back)
    (partners' : p.Partners b' c' t' u' front' mid' back') (distinct : p.Distinct)
    (before : p.Before b b') : c ≠ c' := by
  rintro rfl
  rcases partners.laminar partners' distinct before with apart | inside
  · exact apart.asymm distinct (before_of_placed partners'.placed)
  · exact inside.asymm distinct inside

end Partners

end Program

/-!
## Loaded programs
-/

namespace Program

variable {p : Program} {ls : List (Lexeme × Nat)} {source : String}

theorem map_snd_placed (p : Program) : p.placed.map Prod.snd = p.tokens :=
  map_snd_locatedLines 0 p.lines

theorem kindsOf_placed (p : Program) : kindsOf p.placed = p.tokens.map Token.kind := by
  rw [← map_snd_placed, List.map_map]
  rfl

theorem distinct_of_load (loaded : load source = .ok p) : p.Distinct :=
  fun line member => ((balanced_of_load loaded).loaded line member).distinct

theorem distinct_of_reached {o : Overflow} {all : List Edited} (reached : Reached o all)
    (made : ∀ line ∈ p.lines, ∃ d ∈ all, d.line = line) : p.Distinct := by
  intro line member
  obtain ⟨d, held, rfl⟩ := made line member
  obtain ⟨cells, orderly⟩ := Edited.orderly_of_reached reached d held
  exact orderly.line_distinct

structure Reads (p : Program) (ls : List (Lexeme × Nat)) (s : Draft) : Prop where
  scannable : ∀ l ∈ ls, l.1.Scannable
  read : ({} : Draft).addAll ls = .ok s
  tokens : s.tokens = p.tokens
  braces : s.braces = []

theorem exists_reads_of_load (loaded : load source = .ok p) :
    ∃ ls s, lexemes source = .ok ls ∧ p.Reads ls s := by
  obtain ⟨ls, s, scanned, read, -, braces, lines, -⟩ := exists_reading loaded
  refine ⟨ls, s, scanned, Lexeme.scannable_of_mem scanned, read, ?_, braces⟩
  rw [← s.tokens_closeLine]
  simp [Draft.tokens, Program.tokens, Line.tokens, lines, s.current_closeLine]

theorem Reads.level {s : Draft} (reads : p.Reads ls s) : p.Level := by
  have order := Draft.inOrder_empty.addAll Draft.matched_empty reads.scannable reads.read
  rw [Level, kindsOf_placed, ← reads.tokens, order.braces, reads.braces, List.length_nil]

theorem Reads.pairs {s : Draft} (reads : p.Reads ls s) {b c : Position} {t u : Token}
    {front mid back : List (Position × Token)} (partners : p.Partners b c t u front mid back) :
    Draft.Pairs Draft.braces ls t.id u.id := by
  have tokens : s.tokens = front.map Prod.snd ++
    t :: (mid.map Prod.snd ++ u :: back.map Prod.snd) := by
    rw [reads.tokens, ← map_snd_placed, partners.placed]
    simp
  refine Draft.pairs_of_tokens reads.scannable reads.read tokens
    partners.opening partners.closing ?_
  rw [List.map_map]
  exact partners.level

def OpensAt (p : Program) (b : Position) : Prop :=
  ∃ t, p.tokenAt b = .ok t ∧ t.kind = .openBrace

theorem Level.partners_of_opensAt (level : p.Level) (distinct : p.Distinct) {b : Position}
    (opens : p.OpensAt b) : ∃ c t u front mid back, p.Partners b c t u front mid back := by
  obtain ⟨t, here, opening⟩ := opens
  obtain ⟨front, after, same, -⟩ := scanFrom_eq distinct here
  obtain ⟨c, u, mid, back, partners⟩ := level.exists_partners opening same
  exact ⟨c, t, u, front, mid, back, partners⟩

/-- The braces of a program stand as the reader of its lexemes matched them: each `{` has its own
`}`, and blocks lie inside each other or apart. -/
structure Laminar (p : Program) (ls : List (Lexeme × Nat)) : Prop where
  partner : ∀ b t, p.tokenAt b = .ok t → t.kind = .openBrace →
    ∃ c u, p.blockEnd b = .ok c ∧ p.tokenAt c = .ok u ∧ u.kind = .closeBrace ∧
      Draft.Pairs Draft.braces ls t.id u.id
  distinct : ∀ b b', p.OpensAt b → p.OpensAt b' → b ≠ b' → p.blockEnd b ≠ p.blockEnd b'
  nested : ∀ b b' c c', p.OpensAt b → p.OpensAt b' → p.Before b b' → p.blockEnd b = .ok c →
    p.blockEnd b' = .ok c' → p.Before c b' ∨ p.Before c' c

theorem Reads.laminar {s : Draft} (reads : p.Reads ls s) (distinct : p.Distinct) :
    p.Laminar ls := by
  have level := reads.level
  constructor
  case partner =>
    intro b t here opening
    obtain ⟨front, after, same, -⟩ := scanFrom_eq distinct here
    obtain ⟨c, u, mid, back, partners⟩ := level.exists_partners opening same
    refine ⟨c, u, partners.blockEnd distinct, tokenAt_of_mem distinct ?_, partners.closing,
      reads.pairs partners⟩
    simp [partners.placed]
  case distinct =>
    intro b b' opens opens' other same
    obtain ⟨c, t, u, front, mid, back, partners⟩ := level.partners_of_opensAt distinct opens
    obtain ⟨c', t', u', front', mid', back', partners'⟩ := level.partners_of_opensAt distinct opens'
    rw [partners.blockEnd distinct, partners'.blockEnd distinct] at same
    have shared := Except.ok.inj same
    have first : (b, t) ∈ p.placed := by simp [partners.placed]
    have second : (b', t') ∈ p.placed := by simp [partners'.placed]
    rcases before_or_before first second other with before | after
    · exact partners.closing_ne partners' distinct before shared
    · exact partners'.closing_ne partners distinct after shared.symm
  case nested =>
    intro b b' c c' opens opens' before ends ends'
    obtain ⟨d, t, u, front, mid, back, partners⟩ := level.partners_of_opensAt distinct opens
    obtain ⟨d', t', u', front', mid', back', partners'⟩ := level.partners_of_opensAt distinct opens'
    rw [partners.blockEnd distinct] at ends
    rw [partners'.blockEnd distinct] at ends'
    cases ends
    cases ends'
    exact partners.laminar partners' distinct before

/-- The scan for the end of a block of a script finds the brace that the reader matched, and blocks
are laminar.  In any program, a walk from a position over the following ones meets the position and
all later tokens of the program, each once and in order, and ends.  Edits only ever make lines on
which positions are distinct. -/
theorem laminar_and_scans :
    (∀ source p, load source = .ok p → ∃ ls, lexemes source = .ok ls ∧ p.Laminar ls) ∧
      (∀ p : Program, p.Distinct → ∀ pos t, p.tokenAt pos = .ok t →
        p.placed.map Prod.snd = p.tokens ∧ p.positions.Nodup ∧
          ∃ before after, p.placed = before ++ (pos, t) :: after ∧
            p.scanFrom pos = .ok ((pos, t) :: after) ∧
            ∀ walked, p.Visits (some pos) walked ↔ walked = (pos, t) :: after) ∧
      ∀ o all, Reached o all → ∀ p : Program, (∀ line ∈ p.lines, ∃ d ∈ all, d.line = line) →
        p.Distinct := by
  refine ⟨?_, ?_, fun o all reached p => distinct_of_reached reached⟩
  · intro source p loaded
    obtain ⟨ls, s, scanned, reads⟩ := exists_reads_of_load loaded
    exact ⟨ls, scanned, reads.laminar (distinct_of_load loaded)⟩
  · intro p distinct pos t here
    obtain ⟨before, after, same, scanned, visits⟩ := scanFrom_eq distinct here
    refine ⟨map_snd_placed p, nodup_positions distinct, before, after, same, scanned, ?_⟩
    intro walked
    refine ⟨fun walk => walk.unique visits, ?_⟩
    rintro rfl
    exact visits

def nestedScript : String :=
  "if true \x7b\nwhile false \x7b print(1) \x7d\n\x7d\nif true \x7b \x7d"

def gapped : Program :=
  ofLines [(Edited.made [Edited.comma]).line, {}, (Edited.made [Edited.comma]).line] []

theorem laminar_and_scans_nestedScript :
    (∃ ls u, lexemes nestedScript = .ok ls ∧
      (Machine.programOf nestedScript).blockEnd ⟨0, 2⟩ = .ok ⟨4, 0⟩ ∧
      (Machine.programOf nestedScript).tokenAt ⟨4, 0⟩ = .ok u ∧ Draft.Pairs Draft.braces ls 2 u.id ∧
      (Machine.programOf nestedScript).blockEnd ⟨0, 2⟩ ≠
        (Machine.programOf nestedScript).blockEnd ⟨1, 2⟩) ∧
      gapped.Distinct ∧
      ∀ walked, gapped.Visits (some ⟨0, 0⟩) walked ↔
        walked = [(⟨0, 0⟩, .new .comma 0 1), (⟨2, 0⟩, .new .comma 0 1)] := by
  obtain ⟨laminar, scans, edits⟩ := laminar_and_scans
  constructor
  · have checked : (load nestedScript).toOption.isSome = true ∧
        (Machine.programOf nestedScript).tokenAt ⟨0, 2⟩ = .ok (.new .openBrace 2 1) ∧
        (Machine.programOf nestedScript).tokenAt ⟨1, 2⟩ = .ok (.new .openBrace 5 2) ∧
        (Machine.programOf nestedScript).blockEnd ⟨0, 2⟩ = .ok ⟨4, 0⟩ := by
      decide +kernel
    obtain ⟨isSome, outer, inner, ends⟩ := checked
    have loaded : load nestedScript = .ok (Machine.programOf nestedScript) :=
      Except.eq_ok_getD isSome _
    obtain ⟨ls, scanned, nested⟩ := laminar _ _ loaded
    obtain ⟨c, u, found, closing, -, pairs⟩ := nested.partner _ _ outer rfl
    rw [ends] at found
    cases found
    exact ⟨ls, u, scanned, ends, closing, pairs,
      nested.distinct _ _ ⟨_, outer, rfl⟩ ⟨_, inner, rfl⟩ (by decide)⟩
  · have reached : Reached .stops [{}, Edited.made [Edited.comma]] :=
      .edit 1 Edited.comma (.copy 0 .start rfl) rfl (by decide) rfl
    have distinct : gapped.Distinct := edits _ _ reached gapped (by decide)
    obtain ⟨-, -, before, after, -, scanned, walks⟩ :=
      scans gapped distinct ⟨0, 0⟩ (.new .comma 0 1) rfl
    cases scanned
    exact ⟨distinct, walks⟩

end Program

end LineScript

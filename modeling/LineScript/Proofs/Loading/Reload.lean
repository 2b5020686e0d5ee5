import LineScript.Proofs.Loading.Structure

/-!
# Listing and loading again

The lines of a program, written out one below the other, are a script.  If no float and no unusual
character stands in the way, that script is loaded as a program with the same tokens
(`Program.load_listing`).

The text of a token is the spelling of its lexeme (`TokenKind.toList_text`), so the listing is
scanned as the lexemes of the lines.  These are not the lexemes of the first script: a `;` is a line
break now, and labels are gone.  But a draft that reads them takes the same turns (`Draft.Alike`).
-/

namespace LineScript

/-- The lines of a program as a script. -/
def Program.listing (p : Program) : String :=
  "\n".intercalate (p.lines.map Line.text)

def Lexeme.isCommon (c : Char) : Bool :=
  Text.isPlainAscii c || c = '\n' || c = '\t'

/-- No float, and only common characters in strings. -/
def Lexeme.isCommonText : Lexeme → Bool
  | .float _ => false
  | .string s => s.toList.all isCommon
  | .template s => s.toList.all isCommon
  | _ => true

/-- No label stands between parentheses, of which some are open already. -/
def Lexeme.labelsOutside : Nat → List (Lexeme × Nat) → Bool
  | _, [] => true
  | depth, (.label _, _) :: rest => depth = 0 && labelsOutside depth rest
  | depth, (.openParen, _) :: rest => labelsOutside (depth + 1) rest
  | depth, (.closeParen, _) :: rest => labelsOutside (depth - 1) rest
  | depth, _ :: rest => labelsOutside depth rest

/-!
## The text of tokens
-/

theorem Text.quotedChar_eq_escape {c : Char} (common : Lexeme.isCommon c = true) :
    Text.quotedChar c = Lexeme.escape c := by
  simp only [Lexeme.isCommon, Bool.or_eq_true, decide_eq_true_eq] at common
  rcases common with (plain | rfl) | rfl
  · have shown : Text.isShown c = true := by simp [Text.isShown, plain]
    have low (d : Char) (below : d < ' ') : c ≠ d := by
      rintro rfl
      simp only [Text.isPlainAscii, Bool.and_eq_true, decide_eq_true_eq] at plain
      exact absurd plain.1 (Char.not_le.2 below)
    simp [Text.quotedChar, Lexeme.escape, shown, low '\x00' (by decide), low '\t' (by decide),
      low '\r' (by decide), low '\n' (by decide)]
  · rfl
  · rfl

theorem Text.toList_quote {s : String} (common : s.toList.all Lexeme.isCommon = true) :
    (Text.quote s).toList = Lexeme.quoted s := by
  have same : s.toList.flatMap Text.quotedChar = s.toList.flatMap Lexeme.escape := by
    rw [List.flatMap_def, List.flatMap_def]
    congr 1
    exact List.map_congr_left fun c member =>
      Text.quotedChar_eq_escape (List.all_eq_true.1 common c member)
  rw [Text.quote, String.toList_ofList, Text.quoteChars, same, Lexeme.quoted]

theorem toList_toString_int {n : Int} (nonneg : 0 ≤ n) :
    (toString n).toList = Nat.toDigits 10 n.toNat := by
  obtain ⟨m, rfl⟩ := Int.eq_ofNat_of_zero_le nonneg
  exact Nat.toList_repr

theorem TokenKind.toList_text {k : TokenKind} (read : k.isRead = true)
    (spelled : k.lexeme.Spelled) (common : k.lexeme.isCommonText = true) :
    k.text.toList = k.lexeme.spelling := by
  cases k with
  | literal v =>
      cases v with
      | int n => exact toList_toString_int spelled
      | float x => cases common
      | string s => exact Text.toList_quote common
      | bool b => cases b <;> rfl
      | null => rfl
      | function s => cases read
  | template s =>
      rw [text, String.toList_append, Text.toList_quote common]
      rfl
  | operator op => cases op <;> rfl
  | bracket b side => cases b <;> cases side <;> rfl
  | signal s => cases read
  | _ => rfl

structure TokenKind.Plain (k : TokenKind) : Prop where
  spelled : k.lexeme.Spelled
  text : k.text.toList = k.lexeme.spelling

theorem toList_intercalate_text {kinds : List TokenKind} (plain : ∀ k ∈ kinds, k.Plain) :
    (" ".intercalate (kinds.map TokenKind.text)).toList ++ ['\n'] = lineText kinds := by
  rw [String.toList_intercalate, List.map_map]
  fun_induction lineText kinds with
  | case1 => rfl
  | case2 k => simp [(plain k (by simp)).text]
  | case3 k l ks ih =>
      rw [← ih fun k member => plain k (List.mem_cons_of_mem _ member)]
      simp [(plain k (by simp)).text]

theorem lineText_ne_nil (kinds : List TokenKind) : lineText kinds ≠ [] := by
  fun_cases lineText kinds <;> simp

theorem Program.toList_listing {p : Program} (plain : ∀ line ∈ p.lines, ∀ k ∈ line.kinds, k.Plain) :
    p.listing.toList = (p.kinds.flatMap lineText).dropLast := by
  rw [listing, String.toList_intercalate, kinds]
  generalize p.lines = lines at plain ⊢
  induction lines with
  | nil => rfl
  | cons line lines ih =>
      have here : line.text.toList ++ ['\n'] = lineText line.kinds := by
        rw [← toList_intercalate_text (plain line (by simp))]
        simp [Line.text, Line.kinds, Line.tokens, Token.text, Function.comp_def]
      have later := ih fun line member => plain line (List.mem_cons_of_mem _ member)
      cases lines with
      | nil => simp [← here]
      | cons next lines =>
          have more : ((next :: lines).map Line.kinds).flatMap lineText ≠ [] := by
            simp [lineText_ne_nil]
          rw [List.map_cons (f := Line.kinds), List.flatMap_cons,
            List.dropLast_append_of_ne_nil more, ← later, ← here]
          exact List.intercalate_cons_cons

/-!
## The lexemes of a listing
-/

open Lexeme

theorem lexFrom_words {kinds : List TokenKind} (spelled : ∀ k ∈ kinds, k.lexeme.Spelled) (n : Nat) :
    lexFrom n (lineText kinds).dropLast = .ok (lexed n kinds) := by
  have blank : ∀ more, Parted (' ' :: more) := by
    intro more d hd
    cases hd
    exact .inl rfl
  have nothing : lexFrom n [] = .ok [] := by rw [lexFrom]
  fun_induction lineText kinds with
  | case1 => exact nothing
  | case2 k =>
      have parted : Parted [] := by simp [Parted]
      have last := lexFrom_spelling (spelled k (by simp)) parted n
      rw [k.newlines_lexeme, Nat.add_zero, nothing, List.append_nil] at last
      rw [List.dropLast_concat, last]
      rfl
  | case3 k l ks ih =>
      have more : ' ' :: lineText (l :: ks) ≠ [] := by simp
      rw [List.dropLast_append_of_ne_nil more, List.dropLast_cons_of_ne_nil (lineText_ne_nil _),
        lexFrom_spelling (spelled k (by simp)) (blank _), lexFrom_blank, k.newlines_lexeme,
        Nat.add_zero, ih fun k member => spelled k (List.mem_cons_of_mem _ member)]
      rfl

theorem lexedLines_ne_nil (n : Nat) (kinds : List TokenKind) (code : List (List TokenKind)) :
    lexedLines n (kinds :: code) ≠ [] := by
  simp [lexedLines]

theorem lexFrom_dropLast {code : List (List TokenKind)}
    (spelled : ∀ kinds ∈ code, ∀ k ∈ kinds, k.lexeme.Spelled) (n : Nat) :
    lexFrom n (code.flatMap lineText).dropLast = .ok (lexedLines n code).dropLast := by
  induction code generalizing n with
  | nil => exact by rw [List.flatMap_nil, List.dropLast_nil, lexFrom]; rfl
  | cons kinds code ih =>
      have here := spelled kinds (by simp)
      cases code with
      | nil =>
          rw [List.flatMap_singleton, lexFrom_words here]
          simp [lexedLines]
      | cons next code =>
          have more : (next :: code).flatMap lineText ≠ [] := by simp [lineText_ne_nil]
          have whole : (lexedLines n (kinds :: next :: code)).dropLast =
              lexed n kinds ++ (.newline, n) :: (lexedLines (n + 1) (next :: code)).dropLast := by
            rw [lexedLines, List.dropLast_append_of_ne_nil (by simp),
              List.dropLast_cons_of_ne_nil (lexedLines_ne_nil _ _ _)]
          rw [List.flatMap_cons, List.dropLast_append_of_ne_nil more, lexFrom_lineText here,
            ih fun kinds member => spelled kinds (List.mem_cons_of_mem _ member), whole]
          rfl

/-!
## Reading them again
-/

namespace Draft

variable {s s' t : Draft} {n : Nat} {l : Lexeme}

/-- Drafts that take the same turns. -/
structure Alike (s t : Draft) : Prop where
  lines : t.lines.map Line.kinds = s.lines.map Line.kinds
  current : t.current.kinds = s.current.kinds
  parens : t.parens.map Prod.fst = s.parens.map Prod.fst
  braces : t.braces.length = s.braces.length
  previous : t.previous = s.previous

theorem Alike.outside (alike : s.Alike t) (outside : s.parens = []) : t.parens = [] := by
  have none := alike.parens
  rw [outside] at none
  exact List.map_eq_nil_iff.1 none

theorem Alike.isEmpty (alike : s.Alike t) : t.current.isEmpty = s.current.isEmpty := by
  have same := alike.current
  cases left : s.current.cells <;> cases right : t.current.cells <;>
    simp_all [Line.kinds, Line.isEmpty]

theorem Alike.closeLine (alike : s.Alike t) : s.closeLine.Alike t.closeLine := by
  unfold Draft.closeLine
  rw [alike.isEmpty]
  split
  · exact ⟨alike.lines, alike.current, alike.parens, alike.braces, rfl⟩
  · exact ⟨by simp [alike.lines, alike.current], rfl, alike.parens, alike.braces, rfl⟩

theorem Alike.put (alike : s.Alike t) (k : TokenKind) (n m : Nat) :
    (s.put k n).Alike (t.put k m) :=
  ⟨alike.lines, by simp [Draft.put, alike.current, Token.new], alike.parens, alike.braces, rfl⟩

theorem Alike.withBraces (alike : s.Alike t) {left right : List Nat}
    (same : right.length = left.length) : (s.withBraces left).Alike (t.withBraces right) :=
  ⟨alike.lines, alike.current, alike.parens, same, alike.previous⟩

theorem Alike.withParens (alike : s.Alike t) {left right : List (Bracket × Nat)}
    (same : right.map Prod.fst = left.map Prod.fst) : (s.withParens left).Alike
    (t.withParens right) :=
  ⟨alike.lines, alike.current, same, alike.braces, alike.previous⟩

def relexed (s : Draft) : List Lexeme :=
  s.lines.flatMap (fun line => line.kinds.map TokenKind.lexeme ++ [.newline]) ++
    s.current.kinds.map TokenKind.lexeme

def Rereads (s : Draft) : Prop :=
  ∀ ls : List (Lexeme × Nat), ls.map Prod.fst = s.relexed →
    ∃ t, ({} : Draft).addAll ls = .ok t ∧ s.Alike t

theorem relexed_put (s : Draft) (k : TokenKind) (n : Nat) :
    (s.put k n).relexed = s.relexed ++ [k.lexeme] := by
  simp [relexed, Draft.put, Token.new]

theorem relexed_closeLine (filled : s.current.isEmpty = false) :
    s.closeLine.relexed = s.relexed ++ [.newline] := by
  simp [relexed, Draft.closeLine, filled, Line.kinds]

theorem isEmpty_put (s : Draft) (k : TokenKind) (n : Nat) :
    (s.put k n).current.isEmpty = false := by
  simp [Draft.put, Line.isEmpty, Line.append, Line.newCell, Line.withCells]

theorem closeLine_closeLine (s : Draft) : s.closeLine.closeLine = s.closeLine := by
  have empty : s.closeLine.current.isEmpty = true := by simp [Line.isEmpty, s.current_closeLine]
  conv => lhs; rw [Draft.closeLine]
  rw [if_pos empty, ← s.previous_closeLine]

theorem Rereads.extend (rereads : s.Rereads) {new : List Lexeme}
    (more : s'.relexed = s.relexed ++ new)
    (adds : ∀ t (ls : List (Lexeme × Nat)), ls.map Prod.fst = new → s.Alike t →
      ∃ t', t.addAll ls = .ok t' ∧ s'.Alike t') : s'.Rereads := by
  intro ls same
  rw [more] at same
  obtain ⟨front, last, rfl, hfront, hlast⟩ := List.map_eq_append_iff.1 same
  obtain ⟨t, read, alike⟩ := rereads front hfront
  obtain ⟨t', added, alike'⟩ := adds t last hlast alike
  refine ⟨t', ?_, alike'⟩
  rw [addAll_append, read]
  exact added

theorem Rereads.step (rereads : s.Rereads) (more : s'.relexed = s.relexed ++ [l])
    (adds : ∀ t m, s.Alike t → ∃ t', t.add l m = .ok t' ∧ s'.Alike t') : s'.Rereads := by
  refine rereads.extend more fun t ls same alike => ?_
  obtain ⟨⟨l', m⟩, rfl, hl⟩ := List.map_eq_singleton_iff.1 same
  obtain rfl : l' = l := hl
  obtain ⟨t', added, alike'⟩ := adds t m alike
  exact ⟨t', addAll_cons added [], alike'⟩

theorem Rereads.brace {s₁ : Draft} {k : TokenKind} (rereads : s.Rereads)
    (before : s₁.relexed = s.relexed)
    (adds : ∀ t m, s.Alike t → ∃ t₁, t.add k.lexeme m = .ok (t₁.put k m).closeLine ∧
      t₁.parens = [] ∧ s₁.Alike t₁) : (s₁.put k n).closeLine.Rereads := by
  have more : (s₁.put k n).closeLine.relexed = s.relexed ++ [k.lexeme, .newline] := by
    rw [relexed_closeLine (isEmpty_put _ _ _), relexed_put, before, List.append_assoc]
    rfl
  refine rereads.extend more fun t ls same alike => ?_
  obtain ⟨⟨l, m⟩, ls, rfl, hl, same⟩ := List.map_eq_cons_iff.1 same
  obtain ⟨⟨l', m'⟩, rfl, hl'⟩ := List.map_eq_singleton_iff.1 same
  obtain rfl : l = k.lexeme := hl
  obtain rfl : l' = .newline := hl'
  obtain ⟨t₁, added, outside, alike₁⟩ := adds t m alike
  refine ⟨(t₁.put k m).closeLine, ?_, (alike₁.put k n m).closeLine⟩
  have break_ : (t₁.put k m).closeLine.add .newline m' = .ok (t₁.put k m).closeLine := by
    rw [add_newline (by simp [outside]), closeLine_closeLine]
  rw [addAll_cons added, addAll_cons break_]
  rfl

theorem Rereads.closeLine (rereads : s.Rereads) (remembers : s.Remembers)
    (outside : s.parens = []) :
    s.closeLine.Rereads := by
  cases empty : s.current.isEmpty with
  | true =>
      have same : s.closeLine = s := by
        have none : s.previous = none := by
          have bare : s.current.cells = [] := by simpa [Line.isEmpty] using empty
          rw [remembers, Line.kinds, bare]
          rfl
        rw [Draft.closeLine, if_pos empty, ← none]
      rwa [same]
  | false =>
      refine rereads.step (relexed_closeLine empty) fun t m alike => ?_
      exact ⟨t.closeLine, add_newline (alike.outside outside) m, alike.closeLine⟩

theorem add_of_suits {k : TokenKind} (plain : ∀ b side, k ≠ .bracket b side)
    (read : k.isRead = true) (suits : k.Suits s.previous)
    (inside : k = .semicolon → s.parens ≠ []) (n : Nat) :
    s.add k.lexeme n = .ok (s.put k n) := by
  cases k with
  | literal v =>
      cases v with
      | function f => cases read
      | _ => rfl
  | operator op =>
      cases op with
      | sub =>
          have value : s.afterValue = true := by rw [afterValue_eq]; exact suits
          simp [TokenKind.lexeme, Draft.add, value]
      | negate =>
          have value : s.afterValue = false := by rw [afterValue_eq]; exact suits
          simp [TokenKind.lexeme, Draft.add, value]
      | _ => rfl
  | bracket b side => exact absurd rfl (plain b side)
  | signal s => cases read
  | semicolon => simp [TokenKind.lexeme, Draft.add, inside rfl]
  | _ => rfl

theorem add_openBrace (outside : s.parens = []) (n : Nat) :
    s.add .openBrace n = .ok ((s.withBraces (n :: s.braces)).put .openBrace n).closeLine := by
  have free : s.requireNoParen = .ok () := by simp [requireNoParen, outside]
  simp only [Draft.add, free]
  rfl

theorem add_closeBrace (outside : s.parens = []) {b : Nat} {bs : List Nat}
    (braces : s.braces = b :: bs) (n : Nat) :
    s.add .closeBrace n = .ok ((s.withBraces bs).closeLine.put .closeBrace n).closeLine := by
  have free : s.requireNoParen = .ok () := by simp [requireNoParen, outside]
  simp only [Draft.add, free, braces]
  rfl

theorem add_closeParen {b : Bracket} {i : Nat} {parens : List (Bracket × Nat)}
    (open_ : s.parens = (b, i) :: parens) (n : Nat) :
    s.add .closeParen n = .ok ((s.withParens parens).put (.bracket b .closing) n) := by
  simp only [Draft.add, open_]
  rfl

theorem Adds.rereads (adds : s.Adds n l s') (label : ∀ name, l = .label name → s.parens = [])
    (remembers : s.Remembers) (rereads : s.Rereads) : s'.Rereads := by
  cases adds with
  | ends outside _ => exact rereads.closeLine remembers outside
  | skips _ => exact rereads
  | marks name =>
      intro ls same
      obtain ⟨t, read, alike⟩ := rereads.closeLine remembers (label name rfl) ls same
      exact ⟨t, read, ⟨alike.lines, alike.current, alike.parens, alike.braces, alike.previous⟩⟩
  | opensBlock outside =>
      refine rereads.brace (k := .openBrace) rfl fun t m alike => ?_
      have outside := alike.outside outside
      refine ⟨t.withBraces (m :: t.braces), ?_, outside, alike.withBraces (by simp [alike.braces])⟩
      exact add_openBrace outside m
  | @closesBlock _ rest outside braces =>
      have closed : (s.withBraces rest).closeLine = s.closeLine.withBraces rest :=
        s.closeLine_withBraces rest
      rw [closed]
      refine (rereads.closeLine remembers outside).brace (k := .closeBrace) rfl fun t m alike => ?_
      have outside : t.parens = [] := alike.outside (by simp [outside])
      have count := alike.braces
      rw [braces_closeLine, braces] at count
      obtain ⟨b, bs, open_⟩ : ∃ b bs, t.braces = b :: bs := by
        cases open_ : t.braces with
        | nil => simp [open_] at count
        | cons b bs => exact ⟨b, bs, rfl⟩
      refine ⟨(t.withBraces bs).closeLine, ?_, by simp [outside], ?_⟩
      · exact add_closeBrace outside open_ m
      · have again : (s.closeLine.withBraces rest).closeLine = s.closeLine.withBraces rest := by
          rw [← closed, closeLine_closeLine]
        rw [← again]
        exact (alike.withBraces (by simpa [open_] using count)).closeLine
  | opensParen =>
      have opening := TokenKind.lexeme_opening s.parenHere_ne_scope
      have more := relexed_put (s.withParens ((s.parenHere, n) :: s.parens))
        (.bracket s.parenHere .opening) n
      rw [opening] at more
      refine rereads.step more fun t m alike => ?_
      have same : t.parenHere = s.parenHere := by
        rw [parenHere, parenHere, afterName_eq, afterName_eq, alike.previous]
      refine ⟨(t.withParens ((t.parenHere, m) :: t.parens)).put (.bracket t.parenHere .opening) m,
        rfl, ?_⟩
      rw [same]
      exact (alike.withParens (by simp [alike.parens])).put _ n m
  | @closesParen b i parens open_ round =>
      have more := relexed_put (s.withParens parens) (.bracket b .closing) n
      rw [TokenKind.lexeme_closing round] at more
      refine rereads.step more fun t m alike => ?_
      have open_' := alike.parens
      rw [open_, List.map_cons] at open_'
      obtain ⟨⟨b', i'⟩, parens', found, same, rest⟩ := List.map_eq_cons_iff.1 open_'
      obtain rfl : b' = b := same
      exact ⟨_, add_closeParen found m, (alike.withParens rest).put _ n m⟩
  | @puts k _ lexeme plain read suits inside =>
      subst lexeme
      refine rereads.step (relexed_put s k n) fun t m alike => ?_
      refine ⟨t.put k m, add_of_suits plain read (alike.previous ▸ suits) ?_ m, alike.put k n m⟩
      intro semicolon outside
      have none := alike.parens
      rw [outside] at none
      exact inside semicolon (List.map_eq_nil_iff.1 none.symm)

theorem labelsOutside_cons {rest : List (Lexeme × Nat)} (adds : s.Adds n l s') :
    labelsOutside s.parens.length ((l, n) :: rest) = true ↔
      (∀ name, l = .label name → s.parens = []) ∧ labelsOutside s'.parens.length rest = true := by
  cases adds with
  | ends _ separator => rcases separator with rfl | rfl <;> simp [labelsOutside]
  | skips _ => simp [labelsOutside]
  | marks name => simp [labelsOutside]
  | opensBlock _ => simp [labelsOutside]
  | closesBlock _ _ => simp [labelsOutside]
  | opensParen => simp [labelsOutside]
  | closesParen open_ _ => simp [labelsOutside, open_]
  | @puts k _ lexeme plain _ _ _ =>
      subst lexeme
      cases k with
      | literal v => cases v <;> simp [labelsOutside, TokenKind.lexeme]
      | operator op => cases op <;> simp [labelsOutside, TokenKind.lexeme]
      | bracket b side => exact absurd rfl (plain b side)
      | _ => simp [labelsOutside, TokenKind.lexeme]

theorem rereads_empty : ({} : Draft).Rereads := by
  intro ls same
  obtain rfl := List.map_eq_nil_iff.1 same
  exact ⟨{}, rfl, rfl, rfl, rfl, rfl, rfl⟩

theorem Rereads.addAll {ls : List (Lexeme × Nat)} (rereads : s.Rereads)
    (order : s.InOrder) (matched : s.Matched) (scannable : ∀ l ∈ ls, l.1.Scannable)
    (outside : labelsOutside s.parens.length ls = true)
    (added : s.addAll ls = .ok s') : s'.Rereads := by
  have all := matched.addAll_keeps
    (P := fun d rest => d.Rereads ∧ d.InOrder ∧ labelsOutside d.parens.length rest = true)
    scannable ?_ ⟨rereads, order, outside⟩ added
  · exact all.1
  · rintro d d' l n rest adds ⟨rereads, order, outside⟩
    obtain ⟨label, later⟩ := (labelsOutside_cons adds).1 outside
    exact ⟨adds.rereads label order.remembers rereads, adds.inOrder order, later⟩

end Draft

theorem map_fst_lexedLines (n : Nat) (code : List (List TokenKind)) :
    (lexedLines n code).map Prod.fst =
      code.flatMap fun kinds => kinds.map TokenKind.lexeme ++ [.newline] := by
  induction code generalizing n with
  | nil => rfl
  | cons kinds code ih => simp [lexedLines, lexed, ih, Function.comp_def]

theorem lexedLines_eq_concat (n : Nat) (kinds : List TokenKind) (code : List (List TokenKind)) :
    ∃ m, lexedLines n (kinds :: code) = (lexedLines n (kinds :: code)).dropLast ++
      [(.newline, m)] := by
  induction code generalizing n kinds with
  | nil => exact ⟨n, by simp [lexedLines]⟩
  | cons next code ih =>
      obtain ⟨m, last⟩ := ih (n + 1) next
      refine ⟨m, ?_⟩
      rw [lexedLines, List.dropLast_append_of_ne_nil (by simp),
        List.dropLast_cons_of_ne_nil (lexedLines_ne_nil _ _ _), List.append_assoc, List.cons_append,
        ← last]

theorem Program.plain_of_load {source : String} {ls : List (Lexeme × Nat)} {p : Program}
    (scanned : lexemes source = .ok ls) (loaded : Program.load source = .ok p)
    (common : ∀ l ∈ ls, l.1.isCommonText = true) : ∀ line ∈ p.lines, ∀ k ∈ line.kinds, k.Plain := by
  obtain ⟨ls', s, scanned', read, -, -, lines, -⟩ := exists_reading loaded
  cases scanned.symm.trans scanned'
  have scannable := Lexeme.scannable_of_mem scanned
  have order := (Draft.inOrder_empty.addAll Draft.matched_empty scannable read).closeLine
  have spelled := Draft.spelled_addAll Draft.matched_empty scannable read
  intro line member k hk
  obtain ⟨c, hc, rfl⟩ := List.mem_map.1 hk
  have token : c.token ∈ s.closeLine.tokens := by
    rw [lines] at member
    refine List.mem_append_left _ (List.mem_flatMap.2 ⟨line, member, ?_⟩)
    exact List.mem_map_of_mem hc
  have lexeme : c.token.spelled ∈ ls := by
    rw [s.tokens_closeLine] at token
    have among := List.mem_map_of_mem (f := Token.spelled) token
    rw [spelled] at among
    exact Lexeme.mem_of_mem_kept among
  have ordinary : c.token.kind.lexeme.isCommonText = true := common _ lexeme
  have spelled : c.token.kind.lexeme.Spelled := by
    rcases scannable _ lexeme with spelled | ⟨x, float⟩
    · exact spelled
    · have float : c.token.kind.lexeme = .float x := float
      rw [float] at ordinary
      cases ordinary
  exact ⟨spelled, TokenKind.toList_text (order.read _ token) spelled ordinary⟩

theorem Program.ofLexemes_of_newline {init : List (Lexeme × Nat)} {m : Nat} {t : Draft}
    (read : ({} : Draft).addAll (init ++ [(.newline, m)]) = .ok t) (parens : t.parens = [])
    (braces : t.braces = []) : ∃ p, Program.ofLexemes init = .ok p ∧ p.lines = t.lines := by
  rw [Draft.addAll_append] at read
  cases before : ({} : Draft).addAll init with
  | error e => simp [before] at read
  | ok t₀ =>
      rw [before, Except.bind_ok, Draft.addAll_cons (l := .newline) rfl] at read
      cases read
      have outside : t₀.parens = [] := by
        split at parens
        · rwa [t₀.parens_closeLine] at parens
        · exact parens
      rw [outside] at braces ⊢
      have closed : t₀.braces = [] := by
        rwa [← t₀.braces_closeLine]
      have made : ofLexemes init = .ok
          { lines := t₀.closeLine.lines
            labels := t₀.closeLine.labels
            nextId := t₀.closeLine.nextId } := by
        rw [ofLexemes, before, Except.bind_eq_bind, Except.bind_ok,
          Draft.toProgram, outside, closed]
      exact ⟨_, made, rfl⟩

/-- A program without floats, labels between parentheses or unusual characters is loaded again from
its listing. -/
theorem Program.load_listing {source : String} {ls : List (Lexeme × Nat)} {p : Program}
    (scanned : lexemes source = .ok ls) (loaded : Program.load source = .ok p)
    (common : ∀ l ∈ ls, l.1.isCommonText = true) (outside : labelsOutside 0 ls = true) :
    ∃ p', Program.load p.listing = .ok p' ∧ p'.kinds = p.kinds := by
  have plain := plain_of_load scanned loaded common
  obtain ⟨ls', s, scanned', read, parens, braces, lines, -⟩ := exists_reading loaded
  cases scanned.symm.trans scanned'
  have scannable := Lexeme.scannable_of_mem scanned
  have order := Draft.inOrder_empty.addAll Draft.matched_empty scannable read
  have rereads := (Draft.rereads_empty.addAll Draft.inOrder_empty
    Draft.matched_empty scannable outside
    read).closeLine order.remembers parens
  have relexed : (lexedLines 1 p.kinds).map Prod.fst = s.closeLine.relexed := by
    rw [map_fst_lexedLines, Draft.relexed, Line.kinds, s.current_closeLine, kinds, lines,
      List.flatMap_map, List.map_nil, List.map_nil, List.append_nil]
  have again : lexemes p.listing = .ok (lexedLines 1 p.kinds).dropLast := by
    rw [lexemes, toList_listing plain]
    refine lexFrom_dropLast ?_ 1
    intro kinds member k hk
    obtain ⟨line, hline, rfl⟩ := List.mem_map.1 member
    exact (plain line hline k hk).spelled
  obtain ⟨t, read', alike⟩ := rereads _ relexed
  have free : t.parens = [] := alike.outside (by simp [parens])
  have level : t.braces = [] := by
    have count := alike.braces
    rw [s.braces_closeLine, braces] at count
    exact List.length_eq_zero_iff.1 count
  have program : ∃ p', ofLexemes (lexedLines 1 p.kinds).dropLast = .ok p' ∧ p'.lines = t.lines := by
    cases code : p.kinds with
    | nil =>
        rw [code] at read'
        cases read'
        exact ⟨{}, rfl, rfl⟩
    | cons first rest =>
        obtain ⟨m, last⟩ := lexedLines_eq_concat 1 first rest
        rw [code, last] at read'
        exact ofLexemes_of_newline read' free level
  obtain ⟨p', made, same⟩ := program
  refine ⟨p', by simp [Program.load, again, made], ?_⟩
  rw [kinds, kinds, same, alike.lines, lines]

def menuScript : String :=
  "string s = \"a\\n\"; @top print(f\"\x7bs\x7d\",\n-1 - 2)\nif true \x7b s += s \x7d"

theorem Program.load_listing_menuScript :
    ∃ ls p', lexemes menuScript = .ok ls ∧
      Program.load (Machine.programOf menuScript).listing = .ok p' ∧
      p'.kinds = (Machine.programOf menuScript).kinds ∧ p'.kinds.length = 5 := by
  have checked : (Program.load menuScript).toOption.isSome = true ∧
      (lexemes menuScript).toOption.isSome = true ∧
      (∀ l ∈ (lexemes menuScript).toOption.getD [], l.1.isCommonText = true) ∧
      labelsOutside 0 ((lexemes menuScript).toOption.getD []) = true ∧
      (Machine.programOf menuScript).kinds.length = 5 := by
    decide +kernel
  obtain ⟨isLoaded, isScanned, common, outside, size⟩ := checked
  have loaded : Program.load menuScript = .ok (Machine.programOf menuScript) :=
    Except.eq_ok_getD isLoaded _
  have scanned : lexemes menuScript = .ok ((lexemes menuScript).toOption.getD []) :=
    Except.eq_ok_getD isScanned _
  obtain ⟨p', again, same⟩ := Program.load_listing scanned loaded common outside
  exact ⟨_, p', scanned, again, same, by rw [same, size]⟩

end LineScript

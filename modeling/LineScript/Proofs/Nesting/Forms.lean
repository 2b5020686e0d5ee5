import LineScript.Proofs.Nesting.Braces

/-!
# Block-structured programs

In a block-structured program keywords of control lead their lines and a `{` ends the header of a
block.  A line then has one of few forms (`Program.BlockStructured.form`): some plain tokens,
perhaps after a keyword and before a `{`, perhaps all of it after an `else`.
-/

namespace LineScript

def TokenKind.isControl : TokenKind → Bool
  | .keyword .system => false
  | .keyword _ => true
  | _ => false

def TokenKind.isPlain (k : TokenKind) : Bool :=
  !k.isControl && !k.isScopeBracket

def Keyword.headsBlock : Keyword → Bool
  | .if | .while | .for | .define => true
  | _ => false

/-- The tokens after the first one, and after the second one if the first is an `else`. -/
def beyondLead : List TokenKind → List TokenKind
  | .keyword .else :: _ :: rest => rest
  | _ :: rest => rest
  | [] => []

/-- A `{` alone or after an `else`, or a line that starts with a keyword that a block belongs to,
perhaps after an `else`. -/
def headsBlock : List TokenKind → Bool
  | [.bracket .scope .opening] => true
  | [.keyword .else, .bracket .scope .opening] => true
  | .keyword .else :: .keyword k :: _ => k.headsBlock
  | .keyword k :: _ => k.headsBlock
  | _ => false

theorem beyondLead_cons {k : TokenKind} (rest : List TokenKind) (other : k ≠ .keyword .else) :
    beyondLead (k :: rest) = rest := by
  unfold beyondLead
  split
  · rename_i same
    exact absurd (List.cons.inj same).1 other
  · rename_i same
    exact (List.cons.inj same).2.symm
  · rename_i same
    cases same

theorem headsBlock_cons {k l : TokenKind} {rest : List TokenKind} (other : k ≠ .keyword .else)
    (heads : headsBlock (k :: l :: rest) = true) : ∃ word, k = .keyword word ∧
    word.headsBlock = true := by
  unfold headsBlock at heads
  split at heads
  · rename_i same
    cases same
  · rename_i same
    exact absurd (List.cons.inj same).1 other
  · rename_i same
    exact absurd (List.cons.inj same).1 other
  · rename_i same
    exact ⟨_, (List.cons.inj same).1, heads⟩
  · cases heads

theorem headsBlock_else {k l : TokenKind} {rest : List TokenKind}
    (heads : headsBlock (.keyword .else :: k :: l :: rest) = true) :
    ∃ word, k = .keyword word ∧ word.headsBlock = true := by
  unfold headsBlock at heads
  split at heads
  · rename_i same
    cases same
  · rename_i same
    cases same
  · rename_i same
    exact ⟨_, (List.cons.inj (List.cons.inj same).2).1, heads⟩
  · rename_i same
    cases (List.cons.inj same).1
    cases heads
  · cases heads

/-- No `goback`; all other keywords of control are the first token of their line or follow an `else`
that is; and a line with a `{` is the header of a block and calls no built-in function. -/
structure Program.BlockStructured (p : Program) : Prop where
  noGoback : ∀ line ∈ p.lines, .keyword .goback ∉ line.kinds
  leading : ∀ line ∈ p.lines, ∀ k ∈ beyondLead line.kinds, k.isControl = false
  headers : ∀ line ∈ p.lines, .openBrace ∈ line.kinds →
    .keyword .system ∉ line.kinds ∧ headsBlock line.kinds = true

instance (p : Program) : Decidable p.BlockStructured :=
  decidable_of_iff
    ((∀ line ∈ p.lines, .keyword .goback ∉ line.kinds) ∧
      (∀ line ∈ p.lines, ∀ k ∈ beyondLead line.kinds, k.isControl = false) ∧
      ∀ line ∈ p.lines, .openBrace ∈ line.kinds →
        .keyword .system ∉ line.kinds ∧ headsBlock line.kinds = true)
    ⟨fun ⟨a, b, c⟩ => ⟨a, b, c⟩, fun ⟨a, b, c⟩ => ⟨a, b, c⟩⟩

def Plain (cells : List Cell) : Prop :=
  ∀ c ∈ cells, c.token.kind.isPlain = true

def SystemFree (cells : List Cell) : Prop :=
  ∀ c ∈ cells, c.token.kind ≠ .keyword .system

@[simp] theorem plain_nil : Plain [] := by simp [Plain]

@[simp] theorem plain_cons {c : Cell} {cells : List Cell} :
    Plain (c :: cells) ↔ c.token.kind.isPlain = true ∧ Plain cells := by
  simp [Plain]

@[simp] theorem plain_append {a b : List Cell} : Plain (a ++ b) ↔ Plain a ∧ Plain b := by
  simp only [Plain, List.mem_append]
  exact ⟨fun h => ⟨fun c hc => h c (.inl hc), fun c hc => h c (.inr hc)⟩,
    fun h c hc => hc.elim (h.1 c) (h.2 c)⟩

@[simp] theorem systemFree_nil : SystemFree [] := by simp [SystemFree]

@[simp] theorem systemFree_cons {c : Cell} {cells : List Cell} :
    SystemFree (c :: cells) ↔ c.token.kind ≠ .keyword .system ∧ SystemFree cells := by
  simp [SystemFree]

@[simp] theorem systemFree_append {a b : List Cell} :
    SystemFree (a ++ b) ↔ SystemFree a ∧ SystemFree b := by
  simp only [SystemFree, List.mem_append]
  exact ⟨fun h => ⟨fun c hc => h c (.inl hc), fun c hc => h c (.inr hc)⟩,
    fun h c hc => hc.elim (h.1 c) (h.2 c)⟩

theorem isScopeBracket_of_isPlain {k : TokenKind} (plain : k.isPlain = true) :
    k.isScopeBracket = false := by
  simp only [TokenKind.isPlain, Bool.and_eq_true, Bool.not_eq_true'] at plain
  exact plain.2

theorem ne_openBrace_of_isPlain {k : TokenKind} (plain : k.isPlain = true) : k ≠ .openBrace := by
  rintro rfl
  cases plain

/-- What may follow a keyword and its tokens: the `{` of its block. -/
inductive BraceAfter (k : Keyword) (mid : List Cell) : List Cell → Prop where
  | none : BraceAfter k mid []
  | brace {c : Cell} (kind : c.token.kind = .openBrace) (heads : k.headsBlock = true)
      (free : SystemFree mid) : BraceAfter k mid [c]

inductive Phrase : List Cell → Prop where
  | plain {cells : List Cell} (plain : Plain cells) : Phrase cells
  | brace {c : Cell} (kind : c.token.kind = .openBrace) : Phrase [c]
  | keyword {c : Cell} {k : Keyword} {mid tail : List Cell} (kind : c.token.kind = .keyword k)
      (control : k ≠ .system) (notBack : k ≠ .goback) (plain : Plain mid)
      (after : BraceAfter k mid tail) : Phrase (c :: (mid ++ tail))

inductive Form : List Cell → Prop where
  | closing {c : Cell} (kind : c.token.kind = .closeBrace) : Form [c]
  | phrase {cells : List Cell} (filled : cells ≠ []) (phrase : Phrase cells)
      (noElse : ∀ c, cells.head? = some c → c.token.kind ≠ .keyword .else) : Form cells
  | otherwise {c : Cell} {rest : List Cell} (kind : c.token.kind = .keyword .else)
      (phrase : Phrase rest) : Form (c :: rest)

namespace Program.BlockStructured

variable {p : Program} {line : Line}

private theorem plain_of {cells : List Cell} (calm : ∀ c ∈ cells, c.token.kind.isControl = false)
    (bare : Braceless (cells.map fun c => c.token.kind)) : Plain cells := by
  intro c hc
  have := bare c.token.kind (List.mem_map_of_mem hc)
  simp [TokenKind.isPlain, calm c hc, this]

private theorem phrase_of {c : Cell} {rest : List Cell} (plain : Plain rest)
    (bare : c.token.kind.isScopeBracket = false) (notBack : c.token.kind ≠ .keyword .goback) :
    Phrase (c :: rest) := by
  by_cases control : c.token.kind.isControl = true
  · cases kind : c.token.kind with
    | keyword k =>
        have other : k ≠ .system := by
          rintro rfl
          simp [kind, TokenKind.isControl] at control
        have last : k ≠ .goback := by
          rintro rfl
          exact notBack kind
        have := Phrase.keyword kind other last plain .none
        rwa [List.append_nil] at this
    | _ => simp [kind, TokenKind.isControl] at control
  · refine .plain (plain_cons.2 ⟨?_, plain⟩)
    simp [TokenKind.isPlain, bare, control]

theorem form (structured : p.BlockStructured) (balanced : p.Balanced) (member : line ∈ p.lines) :
    Form line.cells := by
  have noGoback : ∀ c ∈ line.cells, c.token.kind ≠ .keyword .goback := by
    intro c hc kind
    exact structured.noGoback line member (List.mem_map.2 ⟨c, hc, kind⟩)
  have leading := structured.leading line member
  have filled := (balanced.loaded line member).filled
  cases balanced.edged line member with
  | closing c cells kind =>
      rw [cells]
      exact .closing kind
  | plain bare =>
      rw [Line.kinds] at leading bare
      cases cells : line.cells with
      | nil => exact absurd cells filled
      | cons c rest =>
          rw [cells, List.map_cons] at leading bare
          rw [cells] at noGoback
          have first : c.token.kind.isScopeBracket = false := bare _ (by simp)
          have bareRest : Braceless (rest.map fun c => c.token.kind) :=
            fun k hk => bare k (by simp only [List.mem_cons]; exact .inr hk)
          by_cases other : c.token.kind = .keyword .else
          · refine .otherwise other ?_
            cases rest with
            | nil => exact .plain plain_nil
            | cons d rest =>
                rw [other, List.map_cons, beyondLead] at leading
                refine phrase_of (plain_of ?_ ?_) (bareRest _ (by simp)) (noGoback d (by simp))
                · exact fun e he => leading _ (List.mem_map_of_mem he)
                · exact fun k hk => bareRest k
                    (by simp only [List.map_cons, List.mem_cons]; exact .inr hk)
          · rw [beyondLead_cons _ other] at leading
            have notBack := noGoback c (by simp)
            refine .phrase (by simp) (phrase_of (plain_of ?_ bareRest) first notBack) ?_
            · exact fun e he => leading _ (List.mem_map_of_mem he)
            · rintro d hd
              cases hd
              exact other
  | opening header brace cells bare kind =>
      obtain ⟨noSystem, heads⟩ := structured.headers line member
        (by rw [Line.kinds, cells]; simp [kind])
      have free : SystemFree line.cells := fun c hc same =>
        noSystem (List.mem_map.2 ⟨c, hc, same⟩)
      rw [Line.kinds, cells] at leading heads
      rw [cells] at free
      cases header with
      | nil =>
          rw [cells]
          refine .phrase (by simp) (.brace kind) ?_
          rintro c hc
          cases hc
          simp [kind, TokenKind.openBrace]
      | cons c header =>
          simp only [List.map_cons, List.map_append, List.cons_append] at leading heads bare
          have bareRest : Braceless (header.map fun c => c.token.kind) :=
            fun k hk => bare k (List.mem_cons_of_mem _ hk)
          have calm {cells : List Cell} (all : ∀ k ∈ cells.map (fun c => c.token.kind) ++
              [brace.token.kind], k.isControl = false) : ∀ c ∈ cells,
                c.token.kind.isControl = false :=
            fun c hc => all _ (List.mem_append_left _ (List.mem_map_of_mem hc))
          by_cases other : c.token.kind = .keyword .else
          · rw [cells, List.cons_append]
            refine .otherwise other ?_
            cases header with
            | nil => exact .brace kind
            | cons d header =>
                rw [other, List.map_cons, List.cons_append] at leading heads
                obtain ⟨k, word, block⟩ : ∃ k, d.token.kind = .keyword k ∧ k.headsBlock = true := by
                  cases header with
                  | nil => exact headsBlock_else heads
                  | cons e header => exact headsBlock_else heads
                refine .keyword word ?_ ?_ (plain_of (calm leading) ?_) (.brace kind block ?_)
                · rintro rfl
                  cases block
                · rintro rfl
                  cases block
                · exact fun k hk => bareRest k (List.mem_cons_of_mem _ hk)
                · intro e he
                  exact free e (by simp [he])
          · obtain ⟨k, word, block⟩ : ∃ k, c.token.kind = .keyword k ∧ k.headsBlock = true := by
              cases header with
              | nil => exact headsBlock_cons other heads
              | cons e header => exact headsBlock_cons other heads
            rw [beyondLead_cons _ other] at leading
            rw [cells, List.cons_append]
            refine .phrase (by simp) (.keyword word ?_ ?_ (plain_of (calm leading) bareRest)
              (.brace kind block ?_)) ?_
            · rintro rfl
              cases block
            · rintro rfl
              cases block
            · intro e he
              exact free e (by simp [he])
            · rintro d hd
              cases hd
              exact other

end Program.BlockStructured

/-!
## Looking for blocks
-/

namespace Program

variable {p : Program} {t : Nat} {line : Line}

theorem following_last (loaded : p.Loaded) (found : p.lines[t]? = some line) (before : List Cell)
    {c : Cell} (cells : line.cells = before ++ [c]) :
    p.following { line := t, token := c.ref } = .ok (p.firstFrom? (t + 1)) := by
  simp [following, lineAt_eq found, Line.next, (loaded.line found).focus before cells, Focus.next?]

theorem BraceAt.following {b : Position} (brace : p.BraceAt b) (loaded : p.Loaded) :
    p.following b = .ok (p.firstFrom? (b.line + 1)) := by
  obtain ⟨line, header, c, found, cells, -, ref⟩ := brace
  have := following_last loaded found header cells
  rwa [ref] at this

theorem Ends.following {e : Extent} {close : Cell} (ends : p.Ends e close) (loaded : p.Loaded) :
    p.following e.closing = .ok (p.firstFrom? (e.closing.line + 1)) := by
  obtain ⟨line, found, cells⟩ := ends.found
  have := following_last loaded found [] cells
  rwa [ends.ref] at this

structure HeadedBy (p : Program) (t : Nat) (b : Position) : Prop where
  brace : p.BraceAt b
  level : p.openAt b.line = p.openAt t
  near : b.line = t ∨ b.line = t + 1 ∧ ∃ line c, p.lines[b.line]? = some line ∧ line.cells = [c]

theorem Balanced.brace_last (balanced : p.Balanced) (found : p.lines[t]? = some line) {d : Cell}
    (member : d ∈ line.cells) (kind : d.token.kind = .openBrace) :
    ∃ header, line.cells = header ++ [d] ∧ Braceless (header.map fun c => c.token.kind) := by
  cases balanced.edged line (List.mem_of_getElem? found) with
  | plain bare =>
      have := bare d.token.kind (List.mem_map_of_mem member)
      simp [kind, TokenKind.openBrace, TokenKind.isScopeBracket] at this
  | opening header brace cells bare _ =>
      rw [cells, List.mem_append, List.mem_singleton] at member
      rcases member with member | rfl
      · have := bare d.token.kind (List.mem_map_of_mem member)
        simp [kind, TokenKind.openBrace, TokenKind.isScopeBracket] at this
      · exact ⟨header, cells, bare⟩
  | closing close cells other =>
      rw [cells, List.mem_singleton] at member
      rw [member, other] at kind
      cases kind

theorem Balanced.brace_alone (balanced : p.Balanced) (found : p.lines[t]? = some line) {d : Cell}
    {rest : List Cell} (cells : line.cells = d :: rest) (kind : d.token.kind = .openBrace) :
    line.cells = [d] := by
  obtain ⟨header, whole, bare⟩ := balanced.brace_last found (by simp [cells]) kind
  cases header with
  | nil => exact whole
  | cons e header =>
      have := bare e.token.kind (by simp)
      rw [cells] at whole
      rw [← (List.cons.inj whole).1, kind] at this
      cases this

theorem Balanced.openAt_level (balanced : p.Balanced) (found : p.lines[t]? = some line)
    {before after : List Cell} {c : Cell} (cells : line.cells = before ++ c :: after)
    (bare : c.token.kind.isScopeBracket = false) (none : ∀ d ∈ after, d.token.kind ≠ .openBrace) :
    p.openAt (t + 1) = p.openAt t := by
  cases balanced.turns found with
  | level _ same => exact same
  | opening header brace whole _ kind _ =>
      have last := congrArg List.getLast? (whole.symm.trans cells)
      rw [List.getLast?_append, List.getLast?_append] at last
      have later : brace ∈ c :: after := List.mem_of_getLast? (by simpa using last.symm)
      rcases List.mem_cons.1 later with rfl | later
      · simp [kind, TokenKind.openBrace, TokenKind.isScopeBracket] at bare
      · exact absurd kind (none brace later)
  | closing close _ whole kind _ =>
      have member : c ∈ line.cells := by simp [cells]
      rw [whole, List.mem_singleton] at member
      simp [member, kind, TokenKind.closeBrace, TokenKind.isScopeBracket] at bare

theorem isOpenBrace_iff {c : Cell} : isOpenBrace c = true ↔ c.token.kind = .openBrace := by
  simp [isOpenBrace]

theorem headedBy_of_blockStart (balanced : p.Balanced) (found : p.lines[t]? = some line)
    {before after : List Cell} {c : Cell} (cells : line.cells = before ++ c :: after)
    (bare : c.token.kind.isScopeBracket = false) {b : Position}
    (started : p.blockStart { line := t, token := c.ref } = .ok b) : p.HeadedBy t b := by
  have focus := (balanced.loaded.line found).focus before cells
  simp only [blockStart, lineAt_eq found, focus, orFault, Except.mapError_ok_eq,
    Except.bind_eq_bind, Except.bind_ok] at started
  cases first : after.find? isOpenBrace with
  | some d =>
      rw [first] at started
      cases started
      have kind := isOpenBrace_iff.1 (List.find?_some first)
      obtain ⟨header, whole, -⟩ := balanced.brace_last found
        (by simp [cells, List.mem_of_find?_eq_some first]) kind
      exact ⟨⟨line, header, d, found, whole, kind, rfl⟩, rfl, .inl rfl⟩
  | none =>
      rw [first] at started
      have level : p.openAt (t + 1) = p.openAt t := by
        refine balanced.openAt_level found cells bare ?_
        intro d later kind
        exact List.find?_eq_none.1 first d later (isOpenBrace_iff.2 kind)
      cases next : p.lines[t + 1]? with
      | none => simp [next, throw, throwThe, MonadExceptOf.throw] at started
      | some follower =>
          cases head : follower.cells with
          | nil => simp [next, head, throw, throwThe, MonadExceptOf.throw] at started
          | cons d rest =>
              simp only [next, head, Option.bind_some, List.head?_cons,
                Option.filter_some] at started
              by_cases opening : isOpenBrace d = true
              · rw [if_pos opening] at started
                cases started
                have kind := isOpenBrace_iff.1 opening
                have alone := balanced.brace_alone next head kind
                exact ⟨⟨follower, [], d, next, alone, kind, rfl⟩, level,
                  .inr ⟨rfl, follower, d, next, alone⟩⟩
              · rw [if_neg opening] at started
                cases started

theorem headedBy_of_blockAfter (balanced : p.Balanced) (found : p.lines[t]? = some line)
    {before after : List Cell} {c : Cell} (cells : line.cells = before ++ c :: after)
    (bare : c.token.kind.isScopeBracket = false) {e : Extent}
    (made : p.blockAfter { line := t, token := c.ref } = .ok e) :
    p.HeadedBy t e.opening ∧ p.IsBlock e := by
  unfold blockAfter at made
  cases started : p.blockStart { line := t, token := c.ref } with
  | error stop => simp [started] at made
  | ok b =>
      cases ended : p.blockEnd b with
      | error stop => simp [started, ended] at made
      | ok close =>
          simp only [started, ended, Except.bind_eq_bind, Except.bind_ok, Except.pure_eq_ok] at made
          cases made
          have headed := headedBy_of_blockStart balanced found cells bare started
          exact ⟨headed, headed.brace, ended⟩

theorem Balanced.not_openBrace (balanced : p.Balanced) (found : p.lines[t]? = some line)
    {before after : List Cell} {c d : Cell} (cells : line.cells = before ++ c :: after)
    (member : d ∈ before) : d.token.kind ≠ .openBrace := by
  intro kind
  obtain ⟨header, whole, bare⟩ := balanced.brace_last found (by simp [cells, member]) kind
  have same : header = before ++ (c :: after).dropLast := by
    have lasts := congrArg List.dropLast (whole.symm.trans cells)
    rwa [List.dropLast_concat, List.dropLast_append_of_ne_nil (by simp)] at lasts
  have := bare d.token.kind (List.mem_map_of_mem (by simp [same, member]))
  rw [kind] at this
  cases this

/-- The block that belongs to a token belongs to those before it as well. -/
theorem blockAfter_skip (balanced : p.Balanced) (found : p.lines[t]? = some line)
    {before between after : List Cell} {c d : Cell}
    (cells : line.cells = before ++ c :: (between ++ d :: after))
    (bare : d.token.kind.isScopeBracket = false) {e : Extent}
    (made : p.blockAfter { line := t, token := d.ref } = .ok e) :
    p.blockAfter { line := t, token := c.ref } = .ok e := by
  have loaded := balanced.loaded.line found
  have cells' : line.cells = (before ++ c :: between) ++ d :: after := by simp [cells]
  have skipped : (between ++ d :: after).find? isOpenBrace = after.find? isOpenBrace := by
    have none : between.find? isOpenBrace = none := by
      rw [List.find?_eq_none]
      intro x hx opening
      exact balanced.not_openBrace found cells' (by simp [hx]) (isOpenBrace_iff.1 opening)
    have other : isOpenBrace d = false := by
      cases kind : isOpenBrace d with
      | false => rfl
      | true =>
          rw [isOpenBrace_iff.1 kind] at bare
          cases bare
    rw [List.find?_append, none, Option.none_or, List.find?_cons, other]
  suffices started : ∀ b, p.blockStart { line := t, token := d.ref } = .ok b →
      p.blockStart { line := t, token := c.ref } = .ok b by
    unfold blockAfter at made ⊢
    cases first : p.blockStart { line := t, token := d.ref } with
    | error stop => simp [first] at made
    | ok b =>
        rw [first] at made
        rw [started b first]
        exact made
  intro b started
  simp only [blockStart, lineAt_eq found, loaded.focus _ cells', loaded.focus _ cells, orFault,
    Except.mapError_ok_eq, Except.bind_eq_bind, Except.bind_ok, skipped] at started ⊢
  split at started
  · exact started
  · split at started
    · exact started
    · cases started

end Program

end LineScript

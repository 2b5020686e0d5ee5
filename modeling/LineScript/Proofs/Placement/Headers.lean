import LineScript.Proofs.Nesting.Loops
import LineScript.Proofs.Placement.Machines

/-!
# Headers of blocks

The header of a block is read off the program: the parameters of a function, the condition of a
`while` and the parts of a `for`.  What is read is the same whether the brace of the block ends the
line or has been moved (`Placement.KeywordAt`).
-/

namespace LineScript

namespace Action

variable {gap : Option Ref} {tail front front' cells cells' : List Cell}

theorem readParameters_twins (twins : Twins gap cells cells') (read : List Parameter)
    (pending : Option ValueType) :
    readParameters read pending cells' = readParameters read pending cells := by
  induction twins generalizing read pending with
  | nil => rfl
  | cons twin _ ih => cases pending <;> simp only [readParameters, twin.kind, ih]

theorem functionHeader?_brace {ret name opening : Cell} (rest : List Cell)
    (brace : ret.token.kind = .openBrace ∨ name.token.kind = .openBrace ∨
      opening.token.kind = .openBrace) : functionHeader?
        (ret :: name :: opening :: rest) = none := by
  simp only [functionHeader?]
  split
  · rename_i returns named called
    rcases brace with kind | kind | kind
    · rw [kind] at returns
      cases returns
    · rw [kind] at named
      cases named
    · rw [kind] at called
      cases called
  · rfl

/-- The header of a definition is read alike with a brace behind it. -/
theorem functionHeader?_twins (braces : Tail tail) (twins : Twins gap front front') :
    (functionHeader? (front ++ tail) = none ∧ functionHeader? front' = none) ∨
      ∃ type text lead opening opening' after after',
        functionHeader? (front ++ tail) = some (type, text, opening, after ++ tail) ∧
        functionHeader? front' = some (type, text, opening', after') ∧
        front = lead ++ after ∧ opening.token.kind = .bracket .call .opening ∧
        opening'.token.kind = .bracket .call .opening ∧ Twins gap after after' := by
  have kind := braces.braces
  cases twins with
  | nil =>
      refine .inl ⟨?_, rfl⟩
      rcases tail with _ | ⟨a, _ | ⟨b, _ | ⟨c, tail⟩⟩⟩
      · rfl
      · rfl
      · rfl
      · exact functionHeader?_brace tail (.inl (kind a (by simp)))
  | @cons ret ret' _ _ twinRet twins =>
  cases twins with
  | nil =>
      refine .inl ⟨?_, rfl⟩
      rcases tail with _ | ⟨a, _ | ⟨b, tail⟩⟩
      · rfl
      · rfl
      · exact functionHeader?_brace tail (.inr (.inl (kind a (by simp))))
  | @cons name name' _ _ twinName twins =>
  cases twins with
  | nil =>
      refine .inl ⟨?_, rfl⟩
      rcases tail with _ | ⟨a, tail⟩
      · rfl
      · exact functionHeader?_brace tail (.inr (.inr (kind a (by simp))))
  | @cons opening opening' after after' twinOpening twins =>
  simp only [List.cons_append, functionHeader?, twinRet.kind, twinName.kind, twinOpening.kind]
  split
  · rename_i called
    exact .inr ⟨_, _, [ret, name, opening], opening, opening', after, after', rfl, rfl, rfl, called,
      twinOpening.kind.trans called, twins⟩
  · exact .inl ⟨rfl, rfl⟩

theorem headerParts_twins (twins : Twins gap cells cells')
    (low : ∀ c ∈ cells, ∀ n, gap = some n → c.ref < n) (pending : Option HeaderPart) :
    headerParts pending cells' = headerParts pending cells := by
  induction twins generalizing pending with
  | nil => rfl
  | cons twin _ ih =>
      have later := ih fun c hc => low c (by simp [hc])
      simp only [Machine.headerParts_cons, twin.kind, twin.ref_low (low _ (by simp)), later]

end Action

theorem ne_of_low {gap : Option Ref} {cells : List Cell}
    (low : ∀ c ∈ cells, ∀ n, gap = some n → c.ref < n) {r : Ref} (member : r ∈ cells.map Cell.ref) :
    gap ≠ some r := by
  obtain ⟨c, hc, rfl⟩ := List.mem_map.1 member
  exact fun same => Nat.lt_irrefl _ (low c hc _ same)

def spanOf (cells : List Cell) : Option HeaderPart :=
  (cells.head?.map Cell.ref).bind fun first => (cells.getLast?.map Cell.ref).map fun last =>
    (first, last)

theorem spanOf_twins {gap : Option Ref} {cells cells' : List Cell} (twins : Twins gap cells cells')
    (low : ∀ c ∈ cells, ∀ n, gap = some n → c.ref < n) : spanOf cells' = spanOf cells := by
  have refs : cells'.map Cell.ref = cells.map Cell.ref := by
    induction twins with
    | nil => rfl
    | cons twin _ ih =>
        rw [List.map_cons, List.map_cons, twin.ref_low (low _ (by simp)),
          ih fun c hc => low c (by simp [hc])]
  rw [spanOf, spanOf, ← List.head?_map, ← List.head?_map, ← List.getLast?_map,
    ← List.getLast?_map, refs]

theorem mem_of_spanOf {cells : List Cell} {part : HeaderPart} (span : spanOf cells = some part) :
    part.1 ∈ cells.map Cell.ref ∧ part.2 ∈ cells.map Cell.ref := by
  simp only [spanOf, Option.bind_eq_some_iff, Option.map_eq_some_iff] at span
  obtain ⟨_, ⟨x, hx, rfl⟩, _, ⟨y, hy, rfl⟩, rfl⟩ := span
  exact ⟨List.mem_map_of_mem (List.mem_of_head? hx), List.mem_map_of_mem (List.mem_of_getLast? hy)⟩

/-- Where the block of a `while` is: its brace ends the line of the header, or it is on another
line, under a reference that no token of the condition has. -/
inductive BraceOf (header : Nat) (opening : Position) (mid : List Cell) : List Cell → Prop where
  | here {d : Cell} (line : opening.line = header) (token : opening.token = d.ref) :
      BraceOf header opening mid [d]
  | elsewhere (line : opening.line ≠ header) (other : ∀ x ∈ mid, x.ref ≠ opening.token) :
      BraceOf header opening mid []

theorem Action.whileCondition_between {line : Line} {header : Nat} {keyword : Ref}
    {opening : Position} {first last : Option Ref} (next : line.next keyword = .ok first)
    (prev : (if opening.line = header then line.prev opening.token
    else pure line.last?) = .ok last) :
    whileCondition line header keyword opening = .ok (first.bind fun first => last.bind fun last =>
      if first ≠ opening.token ∧ last ≠ keyword then some (first, last) else none) := by
  simp only [whileCondition, next, Except.bind_eq_bind, Except.bind_ok]
  split at prev
  · rename_i here
    rw [if_pos here, prev]
    cases first <;> cases last <;> rfl
  · rename_i elsewhere
    rw [if_neg elsewhere, prev]
    cases first <;> cases last <;> rfl

/-- The condition of a `while` is all that stands between it and the brace. -/
theorem Action.whileCondition_eq {line : Line} (loaded : line.Loaded) {header : Nat}
    {opening : Position}
    {before mid post : List Cell} {c : Cell} (cells : line.cells = before ++ c :: (mid ++ post))
    (brace : BraceOf header opening mid post) :
    whileCondition line header c.ref opening = .ok (spanOf mid) := by
  have next : line.next c.ref = .ok ((mid ++ post).head?.map Cell.ref) := by
    simp [Line.next, loaded.focus before cells, Focus.next?]
  have distinct : (c.ref :: (mid ++ post).map Cell.ref).Nodup := by
    have := loaded.distinct
    rw [Line.refs, cells, List.map_append, List.map_cons] at this
    exact (List.nodup_append.1 this).2.1
  have prev : (if opening.line = header then line.prev opening.token else pure line.last?) =
      .ok ((before ++ c :: mid).getLast?.map Cell.ref) := by
    cases brace with
    | @here d here token =>
        have whole : line.cells = (before ++ c :: mid) ++ [d] := by simp [cells]
        rw [if_pos here, token, Line.prev, loaded.focus _ whole]
        simp only [Except.map_ok_eq, Focus.prev?, List.head?_reverse]
    | elsewhere other =>
        rw [if_neg other, Line.last?, cells, List.append_nil]
        rfl
  rw [whileCondition_between next prev]
  cases mid with
  | nil =>
      cases brace with
      | here _ token => simp [spanOf, token]
      | elsewhere => simp [spanOf]
  | cons x mid =>
      obtain ⟨y, final⟩ : ∃ y, (x :: mid).getLast? = some y :=
        ⟨_, List.getLast?_eq_some_getLast (by simp)⟩
      have first : x.ref ≠ opening.token := by
        cases brace with
        | @here d _ token =>
            rw [token]
            intro same
            simp [same] at distinct
        | elsewhere _ other => exact other x (by simp)
      have notKeyword : y.ref ≠ c.ref := by
        have member : y ∈ x :: mid := List.mem_of_getLast? final
        intro same
        exact (List.nodup_cons.1 distinct).1
          (List.mem_map.2 ⟨y, List.mem_append_left _ member, same⟩)
      have whole : (before ++ c :: x :: mid).getLast? = some y := by
        rw [List.getLast?_append, List.getLast?_cons_cons, final]
        rfl
      simp [spanOf, whole, final, first, notKeyword]

theorem Line.Numbered.ref_lt {l : Line} (numbered : l.Numbered) {before after : List Cell}
    {c x : Cell} (cells : l.cells = before ++ c :: after) (member : x ∈ after) : c.ref < x.ref := by
  have sorted : (l.cells.map Cell.ref).Pairwise (· < ·) := by
    rw [numbered.refs_eq.1]
    exact List.pairwise_lt_range
  rw [cells, List.map_append, List.map_cons] at sorted
  exact List.rel_of_pairwise_cons (List.pairwise_append.1 sorted).2.1 (List.mem_map_of_mem member)

theorem Line.Numbered.ref_first {l : Line} (numbered : l.Numbered) {c : Cell}
    (first : l.cells.head? = some c) : c.ref = 0 := by
  obtain ⟨rest, cells⟩ := List.head?_eq_some_iff.1 first
  have refs := numbered.refs_eq.1
  rw [cells, List.map_cons, List.length_cons, List.range_succ_eq_map] at refs
  exact (List.cons.inj refs).1

namespace Program

variable {p : Program} {t : Nat} {line : Line} {before after mid post : List Cell} {c : Cell}

theorem Balanced.split_header (balanced : p.Balanced) (found : p.lines[t]? = some line)
    (cells : line.cells = before ++ c :: after) :
    ∃ mid post, after = mid ++ post ∧ (∀ x ∈ mid, x.token.kind ≠ .openBrace) ∧
      (post = [] ∨ ∃ d, post = [d] ∧ d.token.kind = .openBrace) := by
  rcases List.eq_nil_or_concat after with rfl | ⟨mid, d, rfl⟩
  · exact ⟨[], [], rfl, nofun, .inl rfl⟩
  · have whole : line.cells = (before ++ c :: mid) ++ d :: [] := by simp [cells]
    have noBrace : ∀ x ∈ mid, x.token.kind ≠ .openBrace := fun x hx =>
      balanced.not_openBrace found whole (by simp [hx])
    by_cases kind : d.token.kind = .openBrace
    · exact ⟨mid, [d], List.concat_eq_append, noBrace, .inr ⟨d, rfl, kind⟩⟩
    · refine ⟨mid ++ [d], [], by simp, ?_, .inl rfl⟩
      intro x hx
      rcases List.mem_append.1 hx with hx | hx
      · exact noBrace x hx
      · rwa [List.mem_singleton.1 hx]

theorem blockStart_of_blockAfter {b : Position} {e : Extent} (made : p.blockAfter b = .ok e) :
    p.blockStart b = .ok e.opening := by
  unfold blockAfter at made
  cases started : p.blockStart b with
  | error stop => simp [started] at made
  | ok b =>
      cases ended : p.blockEnd b with
      | error stop => simp [started, ended] at made
      | ok close =>
          simp only [started, ended, Except.bind_eq_bind, Except.bind_ok, Except.pure_eq_ok] at made
          cases made
          rfl

/-- The brace of a block is the one at the end of the header, or the first token of the
next line. -/
theorem opening_cases (loaded : p.Loaded) (numbered : ∀ line ∈ p.lines, line.Numbered)
    (found : p.lines[t]? = some line) (cells : line.cells = before ++ c :: (mid ++ post))
    (noBrace : ∀ x ∈ mid, x.token.kind ≠ .openBrace)
    (last : post = [] ∨ ∃ d, post = [d] ∧ d.token.kind = .openBrace) {b : Position}
    (started : p.blockStart { line := t, token := c.ref } = .ok b) :
    (∃ d, post = [d] ∧ b = { line := t, token := d.ref }) ∨
      post = [] ∧ b = { line := t + 1, token := 0 } := by
  have nowhere : mid.find? isOpenBrace = none :=
    List.find?_eq_none.2 fun x hx opening => noBrace x hx (isOpenBrace_iff.1 opening)
  simp only [blockStart, lineAt_eq found, (loaded.line found).focus before cells, orFault,
    Except.mapError_ok_eq, Except.bind_eq_bind, Except.bind_ok, List.find?_append, nowhere,
    Option.none_or] at started
  rcases last with rfl | ⟨d, rfl, kind⟩
  · right
    refine ⟨rfl, ?_⟩
    rw [List.find?_nil] at started
    dsimp only at started
    split at started
    · rename_i d first
      cases started
      obtain ⟨next, there, head⟩ := Option.bind_eq_some_iff.1 (Option.filter_eq_some_iff.1 first).1
      rw [(numbered next (List.mem_of_getElem? there)).ref_first head]
    · cases started
  · left
    have opening : isOpenBrace d = true := isOpenBrace_iff.2 kind
    simp only [List.find?_cons, opening] at started
    cases started
    exact ⟨d, rfl, rfl⟩

end Program

namespace Placement

variable {p p' : Program} {place : Placement p.lines p'.lines} {t : Nat}

/-!
## Keywords in the program
-/

structure KeywordAt (place : Placement p.lines p'.lines) (t : Nat) (k : Keyword) (line line' : Line)
    (before before' : List Cell) (c c' : Cell) (front front' brace : List Cell) : Prop where
  found : p.lines[t]? = some line
  found' : p'.lines[place.index t]? = some line'
  cells : line.cells = before ++ c :: (front ++ brace)
  cells' : line'.cells = before' ++ c' :: front'
  kind : c.token.kind = .keyword k
  ref : c'.ref = c.ref
  other : place.gap t ≠ some c.ref
  twins : Twins (place.gap t) front front'
  low : ∀ d ∈ front, ∀ n, place.gap t = some n → d.ref < n
  rest : Rest p'.lines (place.index t) (place.gap t) brace

namespace KeywordAt

variable {k : Keyword} {line line' : Line} {before before' front front' brace : List Cell}
    {c c' : Cell}
  (at_c : place.KeywordAt t k line line' before before' c c' front front' brace)

include at_c

theorem bare : c.token.kind.isScopeBracket = false := by
  rw [at_c.kind]
  rfl

theorem braces : Tail brace :=
  (trails_of_rest at_c.rest .statement).tail

theorem position : place.position { line := t, token := c.ref } =
    { line := place.index t, token := c'.ref } := by
  rw [place.position_header at_c.other, at_c.ref]

theorem blockAfter (balanced : p.Balanced) (loaded' : p'.Loaded) :
    Concur (fun e e' => e' = place.extent e ∧ p.IsBlock e)
      (p.blockAfter { line := t, token := c.ref })
      (p'.blockAfter { line := place.index t, token := c'.ref }) := by
  rw [← at_c.position]
  exact place.blockAfter balanced loaded' at_c.found at_c.cells at_c.bare

theorem blockAfter_later (balanced : p.Balanced) (loaded' : p'.Loaded) {lead more : List Cell}
    {d d' : Cell} (split : front = lead ++ d :: more) (twin : d.Twin (place.gap t) d')
    (bare : d.token.kind.isScopeBracket = false) :
    Concur (fun e e' => e' = place.extent e ∧ p.IsBlock e)
      (p.blockAfter { line := t, token := d.ref })
      (p'.blockAfter { line := place.index t, token := d'.ref }) := by
  have cells : line.cells = (before ++ c :: lead) ++ d :: (more ++ brace) := by
    simp [at_c.cells, split]
  have low := at_c.low d (by simp [split])
  rw [twin.ref_low low, ← place.position_header twin.other]
  exact place.blockAfter balanced loaded' at_c.found cells bare

/-- The condition of a `while` is the same part of both lines. -/
theorem whileCondition (balanced : p.Balanced) (loaded' : p'.Loaded)
    (numbered : ∀ line ∈ p.lines, line.Numbered) (numbered' : ∀ line ∈ p'.lines, line.Numbered)
    {b : Position} (started : p.blockStart { line := t, token := c.ref } = .ok b) :
    ∃ span, Action.whileCondition line t c.ref b = .ok span ∧
      Action.whileCondition line' (place.index t) c'.ref (place.position b) = .ok span ∧
      ∀ part, span = some part → place.gap t ≠ some part.1 ∧ place.gap t ≠ some part.2 := by
  have loaded := balanced.loaded.line at_c.found
  obtain ⟨mid, post, split, noBrace, last⟩ := balanced.split_header at_c.found at_c.cells
  have cells : line.cells = before ++ c :: (mid ++ post) := by rw [at_c.cells, split]
  -- The condition is a part of the line before the gap.
  suffices both : ∃ mid' post', line'.cells = before' ++ c' :: (mid' ++ post') ∧
      Twins (place.gap t) mid mid' ∧ (∀ d ∈ mid, ∀ n, place.gap t = some n → d.ref < n) ∧
      BraceOf t b mid post ∧ BraceOf (place.index t) (place.position b) mid' post' by
    obtain ⟨mid', post', cells', twins, low, braceOf, braceOf'⟩ := both
    refine ⟨spanOf mid, Action.whileCondition_eq loaded cells braceOf, ?_, ?_⟩
    · rw [Action.whileCondition_eq (loaded'.line at_c.found') cells' braceOf',
        spanOf_twins twins low]
    · intro part span
      obtain ⟨first, final⟩ := mem_of_spanOf span
      exact ⟨ne_of_low low first, ne_of_low low final⟩
  have positive : ∀ x ∈ mid, x.ref ≠ 0 := fun x hx =>
    Nat.ne_zero_of_lt ((numbered line (List.mem_of_getElem? at_c.found)).ref_lt cells
      (by simp [hx]))
  have positive' : ∀ x ∈ front', x.ref ≠ 0 := fun x hx =>
    Nat.ne_zero_of_lt ((numbered' line' (List.mem_of_getElem? at_c.found')).ref_lt at_c.cells' hx)
  have opening := Program.opening_cases balanced.loaded numbered at_c.found
    cells noBrace last started
  have twins := at_c.twins
  have low := at_c.low
  have rest := at_c.rest
  generalize gap : place.gap t = g at rest
  cases rest with
  | none =>
      rw [List.append_nil] at split
      rw [split] at twins low
      obtain ⟨mid', post', rfl, inMid, inPost⟩ := twins.append_left
      refine ⟨mid', post', at_c.cells', gap ▸ inMid, fun x hx => gap ▸ low x (by simp [hx]), ?_⟩
      rcases opening with ⟨d, rfl, rfl⟩ | ⟨rfl, rfl⟩
      · obtain ⟨d', _, twin, none, rfl⟩ := List.forall₂_cons_left_iff.1 inPost
        obtain rfl := List.forall₂_nil_left_iff.1 none
        have other : place.gap t ≠ some d.ref := by rw [gap]; nofun
        rw [place.position_header other]
        refine ⟨.here rfl rfl, .here rfl ?_⟩
        rw [twin.ref, gap]
        rfl
      · obtain rfl := List.forall₂_nil_left_iff.1 inPost
        refine ⟨.elsewhere (Nat.succ_ne_self t) positive, .elsewhere ?_ ?_⟩
        · have later := place.index_lt (Nat.lt_succ_self t)
          unfold Placement.position
          split
          · exact Nat.ne_of_gt (Nat.lt_succ_of_lt later)
          · exact Nat.ne_of_gt later
        · have token : (place.position { line := t + 1, token := 0 }).token = 0 := by
            unfold Placement.position
            split <;> rfl
          rw [token]
          exact fun x hx => positive' x (by simp [hx])
  | @brace d d' own kind =>
      rcases opening with ⟨e, rfl, rfl⟩ | ⟨rfl, -⟩
      · obtain ⟨rfl, rfl⟩ := List.append_singleton_inj.1 split
        refine ⟨front', [], by rw [List.append_nil, at_c.cells'], gap ▸ twins, gap ▸ low,
          .here rfl rfl, ?_⟩
        rw [place.position_brace gap]
        exact .elsewhere (Nat.succ_ne_self _) positive'
      · have member : d ∈ mid := by
          rw [List.append_nil] at split
          simp [← split]
        exact absurd kind (noBrace d member)

end KeywordAt

end Placement

end LineScript

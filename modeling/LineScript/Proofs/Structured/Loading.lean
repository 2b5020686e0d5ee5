import LineScript.Program.Draft
import LineScript.Proofs.Outcome
import LineScript.Proofs.Structured.Syntax

/-!
# Loading structured programs

The script of a legal program is read as the lines of its layout (`Body.load_source`): the text of a
line is scanned as the lexemes of its tokens, and the reader, which decides how a `-` and a `(` are
meant, makes the same tokens of them.
-/

namespace LineScript

/-!
## From text to lexemes
-/

def lexed (n : Nat) (kinds : List TokenKind) : List (Lexeme × Nat) :=
  kinds.map fun k => (k.lexeme, n)

def lexedLines : Nat → List (List TokenKind) → List (Lexeme × Nat)
  | _, [] => []
  | n, kinds :: rest => lexed n kinds ++ (.newline, n) :: lexedLines (n + 1) rest

theorem TokenKind.newlines_lexeme (k : TokenKind) : k.lexeme.newlines = 0 := by
  unfold lexeme
  split <;> rfl

open Lexeme

theorem lexFrom_lineText {kinds : List TokenKind} (spelled : ∀ k ∈ kinds, k.lexeme.Spelled)
    (n : Nat) (rest : List Char) :
    lexFrom n (lineText kinds ++ rest) =
      (lexFrom (n + 1) rest).map fun ls => lexed n kinds ++ (.newline, n) :: ls := by
  have parted : ∀ c more, c = ' ' ∨ c = '\n' → Parted (c :: more) := by
    intro c more blank d hd
    cases hd
    exact blank
  fun_induction lineText kinds with
  | case1 => exact lexFrom_newline n rest
  | case2 k =>
      rw [List.append_assoc, List.singleton_append,
        lexFrom_spelling (spelled k (by simp)) (parted _ _ (.inr rfl)), lexFrom_newline,
        k.newlines_lexeme, Nat.add_zero]
      cases lexFrom (n + 1) rest <;> rfl
  | case3 k l ks ih =>
      rw [List.append_assoc, List.cons_append,
        lexFrom_spelling (spelled k (by simp)) (parted _ _ (.inl rfl)), lexFrom_blank,
        k.newlines_lexeme, Nat.add_zero, ih (fun k hk => spelled k (List.mem_cons_of_mem _ hk))]
      cases lexFrom (n + 1) rest <;> rfl

theorem lexFrom_code {code : List (List TokenKind)}
    (spelled : ∀ kinds ∈ code, ∀ k ∈ kinds, k.lexeme.Spelled) (n : Nat) :
    lexFrom n (code.flatMap lineText) = .ok (lexedLines n code) := by
  induction code generalizing n with
  | nil =>
      rw [List.flatMap_nil, lexFrom]
      rfl
  | cons kinds code ih =>
      rw [List.flatMap_cons, lexFrom_lineText (spelled kinds (by simp)),
        ih (fun kinds hkinds => spelled kinds (List.mem_cons_of_mem _ hkinds))]
      rfl

/-!
## From lexemes to tokens
-/

namespace Draft

def putAll (s : Draft) (n : Nat) : List TokenKind → Draft
  | [] => s
  | k :: ks => (s.put k n).putAll n ks

theorem putAll_append (s : Draft) (n : Nat) (a b : List TokenKind) :
    s.putAll n (a ++ b) = (s.putAll n a).putAll n b := by
  induction a generalizing s with
  | nil => rfl
  | cons k a ih => exact ih _

@[simp] theorem putAll_parens (s : Draft) (n : Nat) (ks : List TokenKind) :
    (s.putAll n ks).parens = s.parens := by
  induction ks generalizing s with
  | nil => rfl
  | cons k ks ih => exact ih _

theorem putAll_withParens (s : Draft) (n : Nat) (ks : List TokenKind)
    (parens : List (Bracket × Nat)) :
    ({ s with parens } : Draft).putAll n ks = { s.putAll n ks with parens } := by
  induction ks generalizing s with
  | nil => rfl
  | cons k ks ih => exact ih (s.put k n)

theorem addAll_append (s : Draft) (a b : List (Lexeme × Nat)) :
    s.addAll (a ++ b) = (s.addAll a).bind fun s => s.addAll b := by
  induction a generalizing s with
  | nil => rfl
  | cons l a ih =>
      simp only [List.cons_append, addAll, Except.bind_eq_bind]
      cases s.add l.1 l.2 with
      | error e => rfl
      | ok s' => exact ih s'

theorem addAll_cons {s s' : Draft} {l : Lexeme} {n : Nat} (first : s.add l n = .ok s')
    (rest : List (Lexeme × Nat)) : s.addAll ((l, n) :: rest) = s'.addAll rest := by
  simp [addAll, first]

/-- The lexemes of the tokens are read as the tokens. -/
def Reads (s : Draft) (n : Nat) (ks : List TokenKind) : Prop :=
  s.addAll (lexed n ks) = .ok (s.putAll n ks)

theorem Reads.append {s : Draft} {n : Nat} {a b : List TokenKind} (first : s.Reads n a)
    (second : (s.putAll n a).Reads n b) : s.Reads n (a ++ b) := by
  rw [Reads, lexed, List.map_append, addAll_append, putAll_append]
  rw [Reads, lexed] at first second
  rw [first]
  exact second

theorem Reads.cons {s : Draft} {n : Nat} {k : TokenKind} {ks : List TokenKind}
    (first : s.add k.lexeme n = .ok (s.put k n)) (rest : (s.put k n).Reads n ks) :
    s.Reads n (k :: ks) := by
  rw [Reads, lexed, List.map_cons, addAll_cons first]
  exact rest

/-- Parentheses around what is read inside of them; after a name they are those of a call. -/
theorem Reads.group {s : Draft} {n : Nat} {b : Bracket} {ks : List TokenKind}
    (bracket : (if s.afterName then .call else .paren) = b)
    (inner : (({ s with parens := (b, n) :: s.parens } : Draft).put
      (.bracket b .opening) n).Reads n ks) :
    s.Reads n (.bracket b .opening :: ks ++ [.bracket b .closing]) := by
  have paren : b ≠ .scope := by
    rw [← bracket]
    split <;> exact nofun
  have lexemes : (TokenKind.bracket b .opening).lexeme = .openParen ∧
      (TokenKind.bracket b .closing).lexeme = .closeParen := by
    cases b with
    | scope => exact absurd rfl paren
    | _ => exact ⟨rfl, rfl⟩
  have opening : s.add (TokenKind.bracket b .opening).lexeme n =
      .ok (({ s with parens := (b, n) :: s.parens } : Draft).put (.bracket b .opening) n) := by
    rw [lexemes.1, ← bracket]
    rfl
  rw [Reads, lexed, List.cons_append, List.map_cons, addAll_cons opening, List.map_append,
    addAll_append]
  rw [Reads, lexed] at inner
  rw [inner]
  have put : ({ s with parens := (b, n) :: s.parens } : Draft).put (.bracket b .opening) n =
      { s.put (.bracket b .opening) n with parens := (b, n) :: s.parens } := rfl
  have parens : ((s.put (.bracket b .opening) n).putAll n ks).parens = s.parens :=
    putAll_parens _ _ _
  simp only [List.map_cons, List.map_nil, Except.bind_ok, addAll, add, lexemes.2,
    Except.bind_eq_bind, put, putAll_withParens]
  rw [putAll, putAll_append, ← parens]
  rfl

def Steady : TokenKind → Prop
  | .literal (.float _) => False
  | .literal (.function _) => False
  | .literal _ => True
  | .name _ => True
  | .type _ => True
  | .operator op => op ≠ .sub ∧ op ≠ .negate
  | .keyword _ => True
  | .comma => True
  | _ => False

theorem Steady.add {k : TokenKind} (steady : Steady k) (s : Draft) (n : Nat) :
    s.add k.lexeme n = .ok (s.put k n) := by
  cases k with
  | literal v =>
      cases v with
      | float x => exact absurd steady id
      | function f => exact absurd steady id
      | _ => rfl
  | operator op =>
      obtain ⟨sub, negate⟩ := steady
      cases op with
      | sub => exact absurd rfl sub
      | negate => exact absurd rfl negate
      | _ => rfl
  | name t => rfl
  | type t => rfl
  | keyword k => rfl
  | comma => rfl
  | _ => exact absurd steady id

theorem reads_steady {ks : List TokenKind} (steady : ∀ k ∈ ks, Steady k) (s : Draft) (n : Nat) :
    s.Reads n ks := by
  induction ks generalizing s with
  | nil => rfl
  | cons k ks ih =>
      exact .cons ((steady k (by simp)).add s n)
        (ih (fun k hk => steady k (List.mem_cons_of_mem _ hk)) _)

end Draft

/-!
## Lines of a structured program
-/

theorem Draft.afterValue_put {s : Draft} {k : TokenKind} {n : Nat} :
    (s.put k n).afterValue =
      match k with
      | .literal _ => true
      | .template _ => true
      | .name _ => true
      | .bracket _ .closing => true
      | _ => false := by
  rw [Draft.afterValue, Draft.put]
  cases k with
  | bracket b side => cases side <;> rfl
  | _ => rfl

theorem Draft.afterName_of_afterValue {s : Draft} (h : s.afterValue = false) :
    s.afterName = false := by
  unfold Draft.afterValue at h
  unfold Draft.afterName
  split at h <;> simp_all

namespace Expr

theorem afterValue_putAll (e : Expr) (s : Draft) (n : Nat) :
    (s.putAll n e.kinds).afterValue = true := by
  induction e generalizing s with
  | literal v => simp [kinds, Draft.putAll, Draft.afterValue_put]
  | name t => simp [kinds, Draft.putAll, Draft.afterValue_put]
  | group e _ =>
      rw [kinds, Draft.putAll_append]
      simp [Draft.putAll, Draft.afterValue_put]
  | before op e ih => exact ih _
  | between op l r _ ih =>
      rw [kinds, Draft.putAll_append]
      exact ih _

theorem add_between {op : Operator} (binary : op.isUnary = false) {s : Draft}
    (value : s.afterValue = true) (n : Nat) :
    s.add (TokenKind.operator op).lexeme n = .ok (s.put (.operator op) n) := by
  cases op with
  | negate => exact absurd binary (by decide)
  | sub => simp [TokenKind.lexeme, Draft.add, value]
  | _ => rfl

/-- The expression starts with a token that is read alike after a name and where an operand is
expected. -/
def StartsPlain (e : Expr) : Prop :=
  e.first ≠ .bracket .paren .opening ∧ e.first ≠ .operator .negate

instance (e : Expr) : Decidable e.StartsPlain :=
  inferInstanceAs (Decidable (_ ∧ _))

/-- Where an operand is expected, and if it starts plainly everywhere, the lexemes of an expression
are read as its tokens. -/
theorem reads {e : Expr} {floor : Int} (written : e.Written) (fits : e.Fits floor) {s : Draft}
    (start : s.afterValue = false ∨ e.StartsPlain) (n : Nat) : s.Reads n e.kinds := by
  induction e generalizing floor s with
  | literal v =>
      refine Draft.reads_steady (fun k hk => ?_) s n
      obtain rfl := List.mem_singleton.1 hk
      cases v <;> simp_all [Written, Value.Written, Draft.Steady]
  | name t =>
      refine Draft.reads_steady (fun k hk => ?_) s n
      obtain rfl := List.mem_singleton.1 hk
      trivial
  | group e ih =>
      have value := start.resolve_right fun plain => plain.1 rfl
      refine Draft.Reads.group (by simp [Draft.afterName_of_afterValue value])
        (ih written fits (.inl ?_))
      simp [Draft.afterValue_put]
  | before op e ih =>
      have operator : s.add (TokenKind.operator op).lexeme n = .ok (s.put (.operator op) n) := by
        cases op with
        | negate =>
            have value := start.resolve_right fun plain => plain.2 rfl
            simp [TokenKind.lexeme, Draft.add, value]
        | not => rfl
        | _ => exact absurd fits.1 (by decide)
      refine .cons operator (ih written fits.2.1 (.inl ?_))
      simp [Draft.afterValue_put]
  | between op l r ihl ihr =>
      obtain ⟨binary, -, left, right, -⟩ := fits
      refine .append (ihl written.1 left start) ?_
      refine .cons (add_between binary.1 (l.afterValue_putAll s n) n)
        (ihr written.2 right (.inl ?_))
      simp [Draft.afterValue_put]

theorem mem_kinds {e : Expr} (written : e.Written) {k : TokenKind} (member : k ∈ e.kinds) :
    (∃ v, k = .literal v ∧ v.Written) ∨ (∃ t, k = .name t ∧ Lexeme.isName t = true) ∨
      (∃ op, k = .operator op) ∨ ∃ side, k = .bracket .paren side := by
  induction e with
  | literal v => exact .inl ⟨v, List.mem_singleton.1 member, written⟩
  | name t => exact .inr (.inl ⟨t, List.mem_singleton.1 member, written⟩)
  | group e ih =>
      simp only [kinds, List.cons_append, List.mem_cons, List.mem_append, List.mem_nil_iff,
        or_false] at member
      rcases member with h | h | h
      · exact .inr (.inr (.inr ⟨_, h⟩))
      · exact ih written h
      · exact .inr (.inr (.inr ⟨_, h⟩))
  | before op e ih =>
      rcases List.mem_cons.1 member with h | h
      · exact .inr (.inr (.inl ⟨op, h⟩))
      · exact ih written h
  | between op l r ihl ihr =>
      rcases List.mem_append.1 member with h | h
      · exact ihl written.1 h
      · rcases List.mem_cons.1 h with h | h
        · exact .inr (.inr (.inl ⟨op, h⟩))
        · exact ihr written.2 h

end Expr

def TokenKind.Written (k : TokenKind) : Prop :=
  k.lexeme.Spelled ∧ k.isScopeBracket = false

theorem Value.Written.kind {v : Value} (written : v.Written) : (TokenKind.literal v).Written := by
  cases v with
  | float x => exact absurd written id
  | function f => exact absurd written id
  | int n => exact ⟨written, rfl⟩
  | _ => exact ⟨trivial, rfl⟩

theorem TokenKind.written_operator (op : Operator) : (TokenKind.operator op).Written := by
  refine ⟨?_, rfl⟩
  cases op <;> simp [TokenKind.lexeme, Lexeme.Spelled]

theorem Expr.written_kinds {e : Expr} (written : e.Written) : ∀ k ∈ e.kinds, k.Written := by
  intro k member
  rcases e.mem_kinds written member with ⟨v, rfl, hv⟩ | ⟨t, rfl, ht⟩ | ⟨op, rfl⟩ | ⟨side, rfl⟩
  · exact hv.kind
  · exact ⟨ht, rfl⟩
  · exact TokenKind.written_operator op
  · cases side <;> exact ⟨trivial, rfl⟩

structure Clean (ks : List TokenKind) : Prop where
  written : ∀ k ∈ ks, k.Written
  reads : ∀ s : Draft, s.previous = none → ∀ n, s.Reads n ks

theorem Clean.braceless {ks : List TokenKind} (clean : Clean ks) : Braceless ks :=
  fun k hk => (clean.written k hk).2

namespace Assignment

theorem reads {a : Assignment} (legal : a.Legal) (s : Draft) (n : Nat) : s.Reads n a.kinds := by
  have steady : ∀ k ∈ a.declared.toList.map .type ++ [.name a.name, .operator a.op],
      Draft.Steady k := by
    intro k member
    simp only [List.mem_append, List.mem_map, List.mem_cons, List.mem_nil_iff, or_false] at member
    rcases member with ⟨t, -, rfl⟩ | rfl | rfl
    · trivial
    · trivial
    · rcases legal.op_cases with h | h
      · simp [h, Draft.Steady]
      · cases op : a.op <;> simp_all [Draft.Steady, Operator.operation?]
  have split : a.kinds =
      (a.declared.toList.map .type ++ [.name a.name, .operator a.op]) ++ a.value.kinds := by
    simp [kinds]
  rw [split]
  refine .append (Draft.reads_steady steady s n)
    (a.value.reads legal.value.written legal.value.wellFormed (.inl ?_) n)
  rw [Draft.putAll_append]
  exact Draft.afterValue_put

theorem written_kinds {a : Assignment} (legal : a.Legal) : ∀ k ∈ a.kinds, k.Written := by
  intro k member
  simp only [kinds, List.mem_append, List.mem_map, List.mem_cons, Option.mem_toList] at member
  rcases member with ⟨t, ht, rfl⟩ | rfl | rfl | member
  · exact ⟨legal.type ht, rfl⟩
  · exact ⟨legal.name, rfl⟩
  · exact TokenKind.written_operator _
  · exact a.value.written_kinds legal.value.written k member

end Assignment

theorem clean_keyword {k : Keyword} {e : Expr} (legal : e.Legal) :
    Clean (.keyword k :: e.kinds) where
  written := by
    intro l member
    rcases List.mem_cons.1 member with rfl | member
    · exact ⟨trivial, rfl⟩
    · exact e.written_kinds legal.written l member
  reads := fun _ _ n =>
    .cons rfl (e.reads legal.written legal.wellFormed (.inl Draft.afterValue_put) n)

theorem clean_elseIf {e : Expr} (legal : e.Legal) :
    Clean (.keyword .else :: .keyword .if :: e.kinds) where
  written := by
    intro l member
    rcases List.mem_cons.1 member with rfl | member
    · exact ⟨trivial, rfl⟩
    · exact (clean_keyword legal).written l member
  reads := fun _ _ n =>
    .cons rfl (.cons rfl (e.reads legal.written legal.wellFormed (.inl Draft.afterValue_put) n))

theorem clean_println {operands : List Operand} (written : ∀ o ∈ operands, o.Written) :
    Clean (.keyword .system :: .name "println" :: operandKinds operands) := by
  have operand : ∀ o ∈ operands, Draft.Steady o.kind ∧ o.kind.Written := by
    intro o member
    cases o with
    | name t => exact ⟨trivial, written _ member, rfl⟩
    | literal v =>
        have literal : v.Written := written _ member
        refine ⟨?_, literal.kind⟩
        cases v <;> simp_all [Operand.kind, Draft.Steady, Value.Written]
  have inner : ∀ k ∈ operandKinds operands, Draft.Steady k ∧ k.Written := by
    clear written
    fun_induction operandKinds operands with
    | case1 => simp
    | case2 o => simpa using operand
    | case3 o p rest ih =>
        intro k member
        simp only [List.mem_cons] at member
        rcases member with rfl | rfl | member
        · exact operand o (by simp)
        · exact ⟨trivial, trivial, rfl⟩
        · exact ih (fun o ho => operand o (List.mem_cons_of_mem _ ho)) k member
  refine ⟨?_, fun s _ n => .cons rfl (.cons
    rfl (Draft.reads_steady (fun k hk => (inner k hk).1) _ n))⟩
  intro k member
  simp only [List.mem_cons] at member
  rcases member with rfl | rfl | member
  · exact ⟨trivial, rfl⟩
  · exact ⟨(by decide : Lexeme.isName "println" = true), rfl⟩
  · exact (inner k member).2

theorem clean_for {init step : Assignment} {e : Expr} (hinit : init.Legal) (he : e.Legal)
    (hstep : step.Legal) : Clean (.keyword .for :: forKinds init e step) where
  written := by
    intro k member
    simp only [forKinds, List.cons_append, List.append_assoc, List.mem_cons, List.mem_append,
      List.mem_nil_iff, or_false] at member
    rcases member with rfl | rfl | h | rfl | h | rfl | h | rfl
    · exact ⟨trivial, rfl⟩
    · exact ⟨trivial, rfl⟩
    · exact init.written_kinds hinit k h
    · exact ⟨trivial, rfl⟩
    · exact e.written_kinds he.written k h
    · exact ⟨trivial, rfl⟩
    · exact step.written_kinds hstep k h
    · exact ⟨trivial, rfl⟩
  reads := by
    intro s start n
    refine .cons rfl (.group ?_ (.append (init.reads hinit _ n) (.cons ?_ (.append ?_ (.cons ?_
      (step.reads hstep _ n))))))
    · simp [Draft.afterName, Draft.put]
    · simp [Draft.add, TokenKind.lexeme, Draft.put]
    · exact e.reads he.written he.wellFormed (.inl Draft.afterValue_put) n
    · simp [Draft.add, TokenKind.lexeme, Draft.put]

theorem clean_nil : Clean [] where
  written := by simp
  reads := fun _ _ _ => rfl

theorem clean_singleton (k : Keyword) : Clean [.keyword k] where
  written := by
    intro l member
    obtain rfl := List.mem_singleton.1 member
    exact ⟨trivial, rfl⟩
  reads := fun _ _ _ => rfl

theorem clean_assign {a : Assignment} (legal : a.Legal) : Clean a.kinds :=
  ⟨a.written_kinds legal, fun s _ n => a.reads legal s n⟩

def Layout.Tidy (l : Layout) : Prop :=
  l.All (fun ks => ks ≠ [] ∧ Clean ks) Clean

mutual

theorem Statement.tidy_layout : (s : Statement) → s.Legal → s.layout.Tidy
  | .assign a, legal => ⟨⟨a.kinds_ne_nil, clean_assign legal⟩, trivial⟩
  | .println _, legal => ⟨⟨List.cons_ne_nil _ _, clean_println legal⟩, trivial⟩
  | .block body, legal => ⟨clean_nil, body.tidy_layout legal, trivial⟩
  | .branch _ body rest, legal =>
      ⟨clean_keyword legal.1, body.tidy_layout legal.2.1, rest.tidy_layout legal.2.2⟩
  | .while _ body, legal => ⟨clean_keyword legal.1, body.tidy_layout legal.2, trivial⟩
  | .for _ _ _ body, legal =>
      ⟨clean_for legal.1 legal.2.1 legal.2.2.1, body.tidy_layout legal.2.2.2, trivial⟩
  | .signal _, _ => ⟨⟨List.cons_ne_nil _ _, clean_singleton _⟩, trivial⟩

theorem Body.tidy_layout : (b : Body) → b.Legal → b.layout.Tidy
  | .nil, _ => trivial
  | .cons first rest, legal =>
      (Layout.all_append _ _ _ _).2 ⟨first.tidy_layout legal.1, rest.tidy_layout legal.2⟩

theorem Alternatives.tidy_layout : (r : Alternatives) → r.Legal → r.layout.Tidy
  | .none, _ => trivial
  | .otherwise body, legal => ⟨clean_singleton _, body.tidy_layout legal, trivial⟩
  | .elseIf _ body rest, legal =>
      ⟨clean_elseIf legal.1, body.tidy_layout legal.2.1, rest.tidy_layout legal.2.2⟩

end

/-!
## The lines of a draft
-/

namespace Draft

theorem growing_putAll {s : Draft} (growing : s.current.Growing) (n : Nat) (ks : List TokenKind) :
    (s.putAll n ks).current.Growing := by
  induction ks generalizing s with
  | nil => exact growing
  | cons k ks ih => exact ih (growing.append k _ n)

theorem kinds_putAll (s : Draft) (n : Nat) (ks : List TokenKind) :
    (s.putAll n ks).current.kinds = s.current.kinds ++ ks := by
  induction ks generalizing s with
  | nil => simp [putAll]
  | cons k ks ih =>
      rw [putAll, ih, put]
      simp [Token.new]

@[simp] theorem putAll_lines (s : Draft) (n : Nat) (ks : List TokenKind) :
    (s.putAll n ks).lines = s.lines ∧ (s.putAll n ks).labels = s.labels ∧
      (s.putAll n ks).braces = s.braces := by
  induction ks generalizing s with
  | nil => exact ⟨rfl, rfl, rfl⟩
  | cons k ks ih => exact ih _

structure Extended (s s' : Draft) (code : List (List TokenKind)) : Prop where
  lines : ∃ lines, s'.lines = s.lines ++ lines ∧ lines.map Line.kinds = code ∧
    ∀ l ∈ lines, l.Loaded
  current : s'.current = {}
  parens : s'.parens = []
  labels : s'.labels = s.labels
  previous : s'.previous = none

theorem Extended.trans {s s' s'' : Draft} {a b : List (List TokenKind)} (first : s.Extended s' a)
    (second : s'.Extended s'' b) : s.Extended s'' (a ++ b) where
  lines := by
    obtain ⟨la, ha, ka, loadedA⟩ := first.lines
    obtain ⟨lb, hb, kb, loadedB⟩ := second.lines
    refine ⟨la ++ lb, by rw [hb, ha, List.append_assoc], by rw [List.map_append, ka, kb], ?_⟩
    intro l hl
    rcases List.mem_append.1 hl with hl | hl
    · exact loadedA l hl
    · exact loadedB l hl
  current := second.current
  parens := second.parens
  labels := second.labels.trans first.labels
  previous := second.previous

theorem extended_closeLine {s : Draft} (current : s.current = {}) (parens : s.parens = []) (n : Nat)
    (ks : List TokenKind) (filled : ks ≠ []) : s.Extended (s.putAll n ks).closeLine [ks] := by
  have kinds : (s.putAll n ks).current.kinds = ks := by
    rw [kinds_putAll, current]
    rfl
  have growing : (s.putAll n ks).current.Growing := by
    refine growing_putAll ?_ n ks
    rw [current]
    exact Line.growing_empty
  have notEmpty : (s.putAll n ks).current.cells ≠ [] := by
    intro h
    rw [Line.kinds, h] at kinds
    exact filled kinds.symm
  have open_ : (s.putAll n ks).current.isEmpty = false := by
    simpa [Line.isEmpty] using notEmpty
  rw [closeLine, open_]
  refine ⟨⟨[(s.putAll n ks).current], ?_, by simp [kinds], ?_⟩, rfl, by simp [parens], by simp, rfl⟩
  · simp
  · intro l hl
    obtain rfl := List.mem_singleton.1 hl
    exact ⟨notEmpty, growing.sound, growing.fresh⟩

theorem add_newline {s : Draft} (parens : s.parens = []) (n : Nat) :
    s.add .newline n = .ok s.closeLine := by
  simp [add, parens]

theorem closeLine_idle {s : Draft} (current : s.current = {}) (previous : s.previous = none) :
    s.closeLine = s := by
  have empty : s.current.isEmpty = true := by simp [Line.isEmpty, current]
  rw [closeLine, if_pos empty, ← previous]

theorem addAll_brace {s d : Draft} {l : Lexeme} {n : Nat} (first : s.add l n = .ok d)
    (current : d.current = {}) (parens : d.parens = []) (previous : d.previous = none) :
    s.addAll [(l, n), (.newline, n)] = .ok d := by
  rw [addAll_cons first, addAll_cons (add_newline parens n), closeLine_idle current previous]
  rfl

theorem closeLine_withBraces (s : Draft) (braces : List Nat) :
    ({ s with braces } : Draft).closeLine = { s.closeLine with braces } := by
  unfold closeLine
  by_cases h : s.current.isEmpty <;> simp [h]

theorem addAll_line {s : Draft} (current : s.current = {}) (parens : s.parens = [])
    (previous : s.previous = none) {ks : List TokenKind} (filled : ks ≠ []) (clean : Clean ks)
    (n : Nat) :
    ∃ s', s.addAll (lexed n ks ++ [(.newline, n)]) = .ok s' ∧ s.Extended s' [ks] ∧
      s'.braces = s.braces := by
  have reads : s.addAll (lexed n ks) = .ok (s.putAll n ks) :=
    clean.reads s previous n
  have close := add_newline (s := s.putAll n ks) (by simp [parens]) n
  refine ⟨(s.putAll n ks).closeLine, ?_, extended_closeLine current parens n ks filled, ?_⟩
  · rw [addAll_append, reads, Except.bind_ok, addAll_cons close]
    rfl
  · rw [closeLine]
    split <;> simp

theorem addAll_header {s : Draft} (current : s.current = {}) (parens : s.parens = [])
    (previous : s.previous = none) {ks : List TokenKind} (clean : Clean ks) (n : Nat) :
    ∃ s', s.addAll (lexed n (ks ++ [.openBrace]) ++ [(.newline, n)]) = .ok s' ∧
      s.Extended s' [ks ++ [.openBrace]] ∧ s'.braces = n :: s.braces := by
  have reads : s.addAll (lexed n ks) = .ok (s.putAll n ks) :=
    clean.reads s previous n
  have opens : (s.putAll n ks).add TokenKind.openBrace.lexeme n =
      .ok { (s.putAll n (ks ++ [.openBrace])).closeLine with braces := n :: s.braces } := by
    have step : (s.putAll n ks).add TokenKind.openBrace.lexeme n =
        .ok (({ s.putAll n ks with braces := n :: (s.putAll n ks).braces } : Draft).put
          .openBrace n).closeLine := by
      simp [TokenKind.openBrace, TokenKind.lexeme, add, requireNoParen, parens]
    rw [step, putAll_append, (putAll_lines s n ks).2.2, ← closeLine_withBraces]
    rfl
  have extended := extended_closeLine current parens n (ks ++ [.openBrace]) (by simp)
  refine ⟨{ (s.putAll n (ks ++ [.openBrace])).closeLine with braces := n :: s.braces }, ?_,
    ⟨extended.lines, extended.current, extended.parens, extended.labels, extended.previous⟩, rfl⟩
  rw [lexed, List.map_append, List.append_assoc, addAll_append]
  rw [lexed] at reads
  rw [reads, Except.bind_ok]
  exact addAll_brace opens extended.current extended.parens extended.previous

theorem addAll_close {s : Draft} (current : s.current = {}) (parens : s.parens = [])
    (previous : s.previous = none) {b : Nat} {bs : List Nat} (braces : s.braces = b :: bs)
    (n : Nat) :
    ∃ s', s.addAll (lexed n [.closeBrace] ++ [(.newline, n)]) = .ok s' ∧
      s.Extended s' [[.closeBrace]] ∧ s'.braces = bs := by
  have closes : s.add TokenKind.closeBrace.lexeme n =
      .ok { (s.putAll n [.closeBrace]).closeLine with braces := bs } := by
    have idle : ({ s with braces := bs } : Draft).closeLine = { s with braces := bs } :=
      closeLine_idle current previous
    have step : s.add TokenKind.closeBrace.lexeme n =
        .ok (({ s with braces := bs } : Draft).closeLine.put .closeBrace n).closeLine := by
      simp [TokenKind.closeBrace, TokenKind.lexeme, add, requireNoParen, parens, braces]
    rw [step, idle, ← closeLine_withBraces]
    rfl
  have extended := extended_closeLine current parens n [.closeBrace] (by simp)
  exact ⟨{ (s.putAll n [.closeBrace]).closeLine with braces := bs },
    addAll_brace closes extended.current extended.parens extended.previous,
    ⟨extended.lines, extended.current, extended.parens, extended.labels, extended.previous⟩, rfl⟩

end Draft

theorem lexedLines_append (n : Nat) (a b : List (List TokenKind)) :
    lexedLines n (a ++ b) = lexedLines n a ++ lexedLines (n + a.length) b := by
  induction a generalizing n with
  | nil => rfl
  | cons ks a ih =>
      simp only [List.cons_append, lexedLines, ih, List.append_assoc, List.length_cons]
      rw [Nat.add_assoc, Nat.add_comm 1]

/-- The lexemes of a tidy layout are read as its lines. -/
theorem Layout.Tidy.addAll {l : Layout} (tidy : l.Tidy) {s : Draft} (current : s.current = {})
    (parens : s.parens = []) (previous : s.previous = none) (n : Nat) :
    ∃ s', s.addAll (lexedLines n l.code) = .ok s' ∧ s.Extended s' l.code ∧
      s'.braces = s.braces := by
  induction l generalizing s n with
  | nil => exact ⟨s, rfl, ⟨⟨[], by simp [code]⟩, current, parens, rfl, previous⟩, rfl⟩
  | line ks rest ih =>
      obtain ⟨⟨filled, clean⟩, tidyRest⟩ := tidy
      obtain ⟨s₁, read₁, ext₁, braces₁⟩ := Draft.addAll_line current parens previous filled clean n
      obtain ⟨s₂, read₂, ext₂, braces₂⟩ :=
        ih tidyRest ext₁.current ext₁.parens ext₁.previous (n + 1)
      refine ⟨s₂, ?_, ext₁.trans ext₂, braces₂.trans braces₁⟩
      rw [code, lexedLines, List.append_cons, Draft.addAll_append, read₁]
      exact read₂
  | block header body rest ihBody ih =>
      obtain ⟨clean, tidyBody, tidyRest⟩ := tidy
      obtain ⟨s₁, read₁, ext₁, braces₁⟩ := Draft.addAll_header current parens previous clean n
      obtain ⟨s₂, read₂, ext₂, braces₂⟩ :=
        ihBody tidyBody ext₁.current ext₁.parens ext₁.previous (n + 1)
      obtain ⟨s₃, read₃, ext₃, braces₃⟩ := Draft.addAll_close ext₂.current ext₂.parens
        ext₂.previous (braces₂.trans braces₁) (n + 1 + body.code.length)
      obtain ⟨s₄, read₄, ext₄, braces₄⟩ := ih tidyRest ext₃.current ext₃.parens ext₃.previous
        (n + 1 + body.code.length + 1)
      refine ⟨s₄, ?_, ?_, braces₄.trans braces₃⟩
      · rw [code, lexedLines, List.append_cons, Draft.addAll_append, read₁, Except.bind_ok,
          lexedLines_append, Draft.addAll_append, read₂, Except.bind_ok, lexedLines,
          List.append_cons, Draft.addAll_append, read₃]
        exact read₄
      · exact ext₁.trans (ext₂.trans (ext₃.trans ext₄))

theorem Layout.Tidy.braced {l : Layout} (tidy : l.Tidy) : l.Braced :=
  tidy.mono (fun _ h => h.2.braceless) fun _ h => h.braceless

theorem Layout.Tidy.spelled {l : Layout} (tidy : l.Tidy) :
    ∀ ks ∈ l.code, ∀ k ∈ ks, k.lexeme.Spelled := by
  induction l with
  | nil => simp [code]
  | line ks rest ih =>
      intro ks' member
      rcases List.mem_cons.1 member with rfl | member
      · exact fun k hk => (tidy.1.2.written k hk).1
      · exact ih tidy.2 ks' member
  | block header body rest ihBody ih =>
      intro ks' member
      simp only [code, List.mem_cons, List.mem_append] at member
      rcases member with rfl | member | rfl | member
      · intro k hk
        rcases List.mem_append.1 hk with hk | hk
        · exact (tidy.1.written k hk).1
        · obtain rfl := List.mem_singleton.1 hk
          trivial
      · exact ihBody tidy.2.1 ks' member
      · intro k hk
        obtain rfl := List.mem_singleton.1 hk
        trivial
      · exact ih tidy.2.2 ks' member

theorem Layout.Tidy.load {l : Layout} (tidy : l.Tidy) :
    ∃ p, Program.load (String.ofList (l.code.flatMap lineText)) = .ok p ∧ p.kinds = l.code ∧
      p.Loaded ∧ p.labels = [] := by
  obtain ⟨s, read, extended, braces⟩ := tidy.addAll (s := {}) rfl rfl rfl 1
  obtain ⟨lines, hlines, kinds, loaded⟩ := extended.lines
  have scanned : lexemes (String.ofList (l.code.flatMap lineText)) = .ok (lexedLines 1 l.code) := by
    rw [lexemes, String.toList_ofList]
    exact lexFrom_code tidy.spelled 1
  have whole : s.lines = lines := by simpa using hlines
  refine ⟨{ lines := s.lines, labels := s.labels, nextId := s.nextId }, ?_, ?_, ?_, extended.labels⟩
  · have made : s.toProgram = .ok { lines := s.lines, labels := s.labels, nextId := s.nextId } := by
      rw [Draft.toProgram, extended.parens, braces]
      simp [Draft.closeLine_idle extended.current extended.previous]
    simp [Program.load, scanned, Program.ofLexemes, read, made]
  · rw [Program.kinds, whole, kinds]
  · intro line member
    rw [whole] at member
    exact loaded line member

theorem Body.load_source {body : Body} (legal : body.Legal) :
    ∃ p, Program.load body.source = .ok p ∧ p.kinds = body.layout.code ∧ p.Loaded ∧
      p.labels = [] :=
  (body.tidy_layout legal).load

end LineScript

import LineScript.Proofs.Placement.Machines

/-!
# Reducing twin lines

Actions on an expression come to the same values on both machines, whether or not the brace of a
header stands behind it.
-/

namespace LineScript

def SameNeighbour (gap : Option Ref) (c? c'? : Option Cell) : Prop :=
  (∃ c c', c? = some c ∧ c'? = some c' ∧ c.Twin gap c') ∨
    (∀ c, c? = some c → c.token.kind = .openBrace) ∧ c'? = none

theorem Cell.Twin.literal {gap : Option Ref} {c c' : Cell} (twin : c.Twin gap c') (value : Value)
    (id id' line line' : Nat) :
    ({ c with token := .literal value id line } : Cell).Twin gap
      { c' with token := .literal value id' line' } where
  token := ⟨rfl, rfl, rfl⟩
  ref := twin.ref
  other := twin.other

theorem Template.expansion_ne_nil (segments : List Segment) : expansion segments ≠ [] := by
  have filled (k : TokenKind) (ks : List TokenKind) :
      (k :: ks).intersperse (.operator .add) ≠ [] := by
    cases ks <;> simp [List.intersperse]
  unfold expansion operands
  split <;> exact filled _ _

namespace Focus.Twin

variable {gap : Option Ref} {tail : List Cell} {f f' : Focus}

theorem prev? (twin : f.Twin gap tail f') : SameNeighbour gap f.prev? f'.prev? := by
  have before := twin.before
  simp only [Focus.prev?]
  generalize f.before = b at before
  generalize f'.before = b' at before
  cases before with
  | nil => exact .inr ⟨by simp, rfl⟩
  | cons twin _ => exact .inl ⟨_, _, rfl, rfl, twin⟩

theorem next? (twin : f.Twin gap tail f') (braces : Tail tail) :
    SameNeighbour gap f.next? f'.next? := by
  obtain ⟨front, split, twins⟩ := twin.after
  simp only [Focus.next?, split]
  generalize f'.after = front' at twins
  cases twins with
  | nil =>
      refine .inr ⟨?_, rfl⟩
      intro c first
      exact braces.braces c (List.mem_of_head? first)
  | cons twin _ => exact .inl ⟨_, _, rfl, rfl, twin⟩

theorem after_tail (twin : f.Twin gap tail f') {c' : Cell} (here : f'.next? = some c') :
    ∃ front, f.after.tail = front ++ tail ∧ Twins gap front f'.after.tail := by
  obtain ⟨front, split, twins⟩ := twin.after
  refine ⟨front.tail, ?_, twins.tail⟩
  rw [Focus.next?] at here
  generalize f'.after = front' at twins here
  cases twins with
  | nil => cases here
  | cons _ _ => rw [split]; rfl

end Focus.Twin

namespace Placement

variable {p p' : Program} {place : Placement p.lines p'.lines} {m m' : Machine} {t : Nat}
  {tail : List Cell} {f f' : Focus}

/-!
## Values
-/

namespace Frames

theorem functions_get? (frames : place.Frames m m') (name : String) :
    (m.functions.get? name = none ∧ m'.functions.get? name = none) ∨
      ∃ f f', m.functions.get? name = some f ∧ m'.functions.get? name = some f' ∧
        place.SameFunction f f' := by
  have all := frames.functions
  simp only [Functions.get?]
  generalize m.functions.all = fs at all
  generalize m'.functions.all = fs' at all
  induction all with
  | nil => exact .inl ⟨rfl, rfl⟩
  | @cons f f' _ _ same _ ih =>
      simp only [List.find?_cons, same.name]
      by_cases here : f.name = name
      · simp only [here, decide_true]
        exact .inr ⟨f, f', rfl, rfl, same⟩
      · simp only [here, decide_false]
        exact ih

theorem functions_contains (frames : place.Frames m m') (name : String) :
    m'.functions.contains name = m.functions.contains name := by
  simp only [Functions.contains]
  rcases frames.functions_get? name with ⟨none, none'⟩ | ⟨f, f', found, found', -⟩
  · rw [none, none']
  · rw [found, found']
    rfl

theorem valueOf (frames : place.Frames m m') {token token' : Token} (twin : token.Twin token') :
    Concur Eq (m.valueOf token) (m'.valueOf token') := by
  have kind := twin.kind
  unfold Machine.valueOf
  rw [kind]
  cases token.kind with
  | literal v => exact .ok rfl
  | name name =>
      have same : m'.valueOfName name = m.valueOfName name := by
        simp only [Machine.valueOfName, frames.symbols, frames.functions_contains]
      simp only [same]
      exact .cause _ _ _
  | _ => exact .error rfl

end Frames

end Placement

namespace Action.Agree

variable {p p' : Program} {place : Placement p.lines p'.lines} {m m' : Machine} {γ δ : Type}
  {Q : γ → δ → Machine → Machine → Prop}

theorem value {k : Value → Action γ} {k' : Value → Action δ} {c c' : Cell}
    (frames : place.Frames m m') (twin : c.token.Twin c'.token)
    (rest : ∀ v, Agree Q (k v) m (k' v) m') :
    Agree Q (valueOf c >>= k) m (valueOf c' >>= k') m' := by
  refine bind (P := fun v v' n n' => v = v' ∧ n = m ∧ n' = m') ?_ ?_
  · have both := frames.valueOf twin
    refine .next rfl rfl ?_
    generalize m.valueOf c.token = x at both
    generalize m'.valueOf c'.token = y at both
    cases both with
    | ok same => exact .ok rfl rfl ⟨same, rfl, rfl⟩
    | error kind => exact .error rfl rfl kind frames.sink
    | fault => exact .fault rfl
  · rintro v v' n n' ⟨rfl, rfl, rfl⟩
    exact rest v

theorem operand {k : Cell → Action γ} {k' : Cell → Action δ} {f f' : Focus} {c? c'? : Option Cell}
    {gap : Option Ref} (sink : m'.sink = m.sink) (same : SameNeighbour gap c? c'?)
    (rest : ∀ c c', c? = some c → c'? = some c' → c.Twin gap c' → Agree Q (k c) m (k' c') m') :
    Agree Q (asOperand f c? >>= k) m (asOperand f' c'? >>= k') m' := by
  have stray : Agree Q (Action.raise f.cell.token.stray >>= k) m
      (Action.raise f'.cell.token.stray >>= k') m' :=
    .stopped (.stray sink)
  rcases same with ⟨c, c', rfl, rfl, twin⟩ | ⟨brace, rfl⟩
  · simp only [asOperand, twin.kind]
    cases operand : c.token.kind.isOperand with
    | true => exact .next rfl rfl (rest c c' rfl rfl twin)
    | false => exact stray
  · cases c? with
    | none => exact stray
    | some c =>
        simp only [asOperand, brace c rfl]
        exact stray

end Action.Agree

namespace Placement

variable {p p' : Program} {place : Placement p.lines p'.lines} {m m' n n' : Machine} {t : Nat}
  {tail : List Cell} {f f' : Focus}

structure Acts (place : Placement p.lines p'.lines) (t : Nat) (tail : List Cell) (f f' : Focus)
    (m m' : Machine) : Prop where
  frames : place.Frames m m'
  on : place.OnLine t tail m.work m'.work
  twin : f.Twin (place.gap t) tail f'
  whole : f.cells = m.work.line.cells
  whole' : f'.cells = m'.work.line.cells
  sound : m.work.line.Sound
  sound' : m'.work.line.Sound

theorem settled {P : Line → Prop} {x y : Action Unit} {n₁ n₁' : Machine}
    (left : Action.Settles P x n n₁) (right : Action.Settles P y n' n₁') (holds : P n.work.line)
    (holds' : P n'.work.line) (placed : place.Placed n₁ n₁') : place.Keeps x n y n' :=
  .ok (left.outcome holds) (right.outcome holds') placed

theorem placed_onLine {cells cells' : List Cell} (front : List Cell) (split : cells = front ++ tail)
    (twins : Twins (place.gap t) front cells') (filled : tail ≠ [] → front ≠ [])
    (frames : place.Frames n n') (on : place.OnLine t tail n.work n'.work) (ids : Nat) :
    place.Placed (n.onLine cells ids) (n'.onLine cells' ids) :=
  { frames with
    work := fun _ => .line { on with cells := split, twins := twins, filled := filled } }

theorem placed_result {cells before before' front after' : List Cell} {c c' : Cell}
    (split : cells = front ++ tail) (onLeft : Twins (place.gap t) before before')
    (twin : c.Twin (place.gap t) c') (onRight : Twins (place.gap t) front after')
    (frames : place.Frames n n') (on : place.OnLine t tail n.work n'.work) (ids : Nat) :
    place.Placed (n.onLine (before ++ c :: cells) ids)
      (n'.onLine (before' ++ c' :: after') ids) := by
  refine placed_onLine (before ++ c :: front) ?_ (onLeft.append (.cons twin onRight))
    (by simp) frames
    on ids
  rw [split, List.append_assoc, List.cons_append]

namespace Acts

variable (acts : place.Acts t tail f f' m m')

include acts

theorem sink : m'.sink = m.sink :=
  acts.frames.sink

theorem braces : Tail tail :=
  acts.on.trails.tail

theorem prev? : SameNeighbour (place.gap t) f.prev? f'.prev? :=
  acts.twin.prev?

theorem next? : SameNeighbour (place.gap t) f.next? f'.next? :=
  acts.twin.next? acts.braces

/-!
## Operators
-/

theorem applyBinary (op : Operator) :
    place.Keeps (Action.applyBinary f op) m (Action.applyBinary f' op) m' := by
  unfold Action.applyBinary
  refine .operand acts.sink acts.prev? fun left left' prev prev' twinLeft => ?_
  refine .operand acts.sink acts.next? fun right right' next next' twinRight => ?_
  refine .value acts.frames twinLeft.token fun a => ?_
  refine .value acts.frames twinRight.token fun b => ?_
  refine .cause acts.sink fun result _ => ?_
  refine .next rfl rfl ?_
  refine settled (Action.settles_between acts.whole prev next result)
    (Action.settles_between acts.whole' prev' next' result) acts.sound.distinct acts.sound'.distinct
      ?_
  obtain ⟨front, split, twins⟩ := acts.twin.after_tail next'
  exact placed_result split acts.twin.before.tail.reverse
    (acts.twin.cell.literal ..) twins acts.frames
    acts.on 1

theorem powerAfter? : Action.powerAfter? f' = Action.powerAfter? f := by
  obtain ⟨front, split, twins⟩ := acts.twin.after
  have noPower : ∀ c ∈ tail, c.token.kind ≠ .operator .pow := by
    intro c hc
    rw [acts.braces.braces c hc]
    nofun
  unfold Action.powerAfter?
  rw [split]
  generalize f'.after = front' at twins
  cases twins with
  | nil =>
      match tail, noPower with
      | [], _ => rfl
      | [_], _ => rfl
      | _ :: c :: _, noPower => exact (if_neg (noPower c (by simp))).symm
  | cons _ twins =>
      cases twins with
      | nil =>
          match tail, noPower with
          | [], _ => rfl
          | c :: _, noPower => exact (if_neg (noPower c (by simp))).symm
      | cons twin _ => simp only [List.cons_append, twin.kind, twin.token.priority]

theorem applyUnary (op : Operator) :
    place.Keeps (Action.applyUnary f op) m (Action.applyUnary f' op) m' := by
  unfold Action.applyUnary
  refine .operand acts.sink acts.next? fun operand operand' next next' twin => ?_
  have waits : Action.waitsBelow? f' op = Action.waitsBelow? f op := by
    rw [Action.waitsBelow?, Action.waitsBelow?, acts.powerAfter?, acts.twin.cell.token.priority]
  rw [waits]
  cases Action.waitsBelow? f op with
  | some priority =>
      refine .next rfl rfl ?_
      refine settled (Action.settles_wait acts.whole priority)
        (Action.settles_wait acts.whole' priority)
        acts.sound.distinct acts.sound'.distinct ?_
      obtain ⟨front, split, twins⟩ := acts.twin.after
      refine placed_result split acts.twin.before.reverse ?_ twins acts.frames acts.on 0
      exact ⟨⟨acts.twin.kind, rfl, acts.twin.cell.token.expanded⟩, acts.twin.cell.ref,
        acts.twin.cell.other⟩
  | none =>
      refine .value acts.frames twin.token fun v => ?_
      refine .cause acts.sink fun result _ => ?_
      refine settled (Action.settles_before acts.whole next result)
        (Action.settles_before acts.whole' next' result) acts.sound.distinct acts.sound'.distinct ?_
      obtain ⟨front, split, twins⟩ := acts.twin.after_tail next'
      exact placed_result split acts.twin.before.reverse
        (acts.twin.cell.literal ..) twins acts.frames
        acts.on 1

/-!
## Variables
-/

omit acts in
theorem assignmentTarget? {gap : Option Ref} {before before' : List Cell}
    (twins : Twins gap before before') :
    (Action.assignmentTarget? before = none ∧ Action.assignmentTarget? before' = none) ∨
      ∃ name declared rest rest', Action.assignmentTarget? before = some (name, declared, rest) ∧
        Action.assignmentTarget? before' = some (name, declared, rest') ∧ Twins gap rest rest' := by
  cases twins with
  | nil => exact .inl ⟨rfl, rfl⟩
  | cons twin twins =>
      simp only [Action.assignmentTarget?, twin.kind]
      split
      · cases twins with
        | nil => exact .inr ⟨_, _, _, _, rfl, rfl, .nil⟩
        | cons twin twins =>
            simp only [twin.kind]
            split
            · exact .inr ⟨_, _, _, _, rfl, rfl, twins⟩
            · exact .inr ⟨_, _, _, _, rfl, rfl, .cons twin twins⟩
      · exact .inl ⟨rfl, rfl⟩

theorem assign (op : Operator) : place.Keeps (Action.assign f op) m (Action.assign f' op) m' := by
  unfold Action.assign
  rcases assignmentTarget? acts.twin.before with ⟨none, none'⟩ |
    ⟨name, declared, before, before', found, found', twins⟩
  · rw [none, none']
    exact .fail acts.sink rfl
  · rw [found, found']
    refine .operand acts.sink acts.next? fun source source' next next' twin => ?_
    refine .value acts.frames twin.token fun operand => ?_
    -- What follows once the value to assign is known.
    have store (value : Value) : place.Keeps (do
        let symbols ← Action.ofCause f.cell.token.line
          (Action.assigned m.symbols op name declared value)
        Action.setSymbols symbols
        Action.emit (.assigned name value)
        if declared.isSome then Action.removeEach (f.before.tail.take 1)
        Action.answer f.cell.ref value
        Action.removeEach (f.before.take 1)
        Action.remove source.ref) m (do
        let symbols ← Action.ofCause f'.cell.token.line
          (Action.assigned m.symbols op name declared value)
        Action.setSymbols symbols
        Action.emit (.assigned name value)
        if declared.isSome then Action.removeEach (f'.before.tail.take 1)
        Action.answer f'.cell.ref value
        Action.removeEach (f'.before.take 1)
        Action.remove source'.ref) m' := by
      refine .cause acts.sink fun after _ => .next rfl rfl (.next rfl rfl ?_)
      refine settled
        (Action.settles_assigned (m := { m with symbols := after }) acts.whole found next value)
        (Action.settles_assigned (m := { m' with symbols := after }) acts.whole' found' next' value)
        acts.sound.distinct acts.sound'.distinct ?_
      obtain ⟨front, split, onRight⟩ := acts.twin.after_tail next'
      have frames : place.Frames { m with symbols := after } { m' with symbols := after } :=
        { acts.frames with symbols := rfl }
      exact placed_result split twins.reverse (acts.twin.cell.literal ..) onRight frames acts.on 1
    refine .next rfl rfl ?_
    dsimp only
    rw [acts.frames.symbols]
    cases op.operation? with
    | none => exact .next rfl rfl (store operand)
    | some base => exact .cause acts.sink fun value _ => store value

theorem declare (type : ValueType) :
    place.Keeps (Action.declare f type) m (Action.declare f' type) m' := by
  unfold Action.declare
  rcases acts.next? with ⟨c, c', here, here', twin⟩ | ⟨brace, none⟩
  · have same : f'.nextName? = f.nextName? := by
      rw [Focus.nextName?, Focus.nextName?, here, here', Option.bind_some,
        Option.bind_some, twin.kind]
    rw [same]
    cases f.nextName? with
    | none => exact .stray acts.sink
    | some name =>
        refine .next rfl rfl ?_
        rw [acts.frames.symbols]
        refine .cause acts.sink fun symbols _ => .next rfl rfl ?_
        refine settled (Action.settles_drop (m := { m with symbols }) acts.whole)
          (Action.settles_drop (m := { m' with symbols }) acts.whole') acts.sound.distinct
          acts.sound'.distinct ?_
        obtain ⟨front, split, twins⟩ := acts.twin.after
        have frames : place.Frames { m with symbols } { m' with symbols } :=
          { acts.frames with symbols := rfl }
        refine placed_onLine (f.before.reverse ++ front) (by rw [split, List.append_assoc])
          (acts.twin.before.reverse.append twins) ?_ frames acts.on 0
        rintro - empty
        rw [(List.append_eq_nil_iff.1 empty).2] at twins
        rw [Focus.next?, List.forall₂_nil_left_iff.1 twins] at here'
        cases here'
  · have unnamed : f.nextName? = Option.none := by
      rw [Focus.nextName?]
      cases here : f.next? with
      | none => rfl
      | some c => rw [Option.bind_some, brace c here]; rfl
    have unnamed' : f'.nextName? = Option.none := by rw [Focus.nextName?, none]; rfl
    rw [unnamed, unnamed']
    exact .stray acts.sink

/-!
## Templates and built-in functions
-/

omit acts in
theorem twins_chainCells {gap : Option Nat} {r : Nat} (above : ∀ n, gap = some n → n < r)
    (kinds : List TokenKind) (line line' id id' : Nat) (priority : Int) :
    Twins gap (Action.chainCells line priority r id kinds)
      (Action.chainCells line' priority (renumber gap r) id' kinds) := by
  induction kinds generalizing r id id' with
  | nil => exact .nil
  | cons kind kinds ih =>
      refine .cons ⟨?_, rfl, ?_⟩ ?_
      · cases kind <;> exact ⟨rfl, rfl, rfl⟩
      · intro same
        exact Nat.lt_irrefl _ (above r same)
      · rw [← renumber_add above]
        exact ih (fun n same => Nat.lt_succ_of_lt (above n same)) _ _

theorem expandTemplate (template : String) :
    place.Keeps (Action.expandTemplate f template) m (Action.expandTemplate f' template) m' := by
  unfold Action.expandTemplate
  refine .cause acts.sink fun segments _ => ?_
  refine settled (Action.settles_expanded acts.whole _ _) (Action.settles_expanded acts.whole' _ _)
    acts.sound acts.sound' ?_
  obtain ⟨front, split, twins⟩ := acts.twin.after
  have chain := twins_chainCells acts.on.above (Template.expansion segments) f.cell.token.line
    f'.cell.token.line m.nextId m'.nextId
  exact { acts.frames with
    work := fun _ => .line
      { index := acts.on.index
        index' := acts.on.index'
        purpose := acts.on.purpose
        trails := acts.on.trails
        above := fun n same => Nat.lt_add_right _ (acts.on.above n same)
        nextRef := by
          change m'.work.line.nextRef + _ = renumber _ (m.work.line.nextRef + _)
          rw [acts.on.nextRef, renumber_add acts.on.above]
        cells := by
          change f.before.reverse ++ _ ++ f.after = _
          rw [split, ← List.append_assoc]
        twins := by
          change Twins _ _ (_ ++ Action.chainCells _ (_ + (f'.cell.token.priority - _) + _)
            m'.work.line.nextRef _ _ ++ _)
          rw [acts.on.nextRef, acts.twin.cell.token.priority]
          exact (acts.twin.before.reverse.append (chain _)).append twins
        filled := by
          rintro - empty
          have none := (List.append_eq_nil_iff.1 (List.append_eq_nil_iff.1 empty).1).2
          have kinds := congrArg (List.map fun c => c.token.kind) none
          rw [Action.map_kind_chainCells] at kinds
          exact Template.expansion_ne_nil segments kinds } }

omit acts in
theorem builtinArguments (frames : place.Frames m m') {gap : Option Ref} {cells cells' : List Cell}
    (twins : Twins gap cells cells') :
    Concur (fun r r' => r'.1 = r.1 ∧ Twins gap r.2 r'.2) (Action.builtinArguments m cells)
      (Action.builtinArguments m' cells') := by
  induction twins with
  | nil => exact .ok ⟨rfl, .nil⟩
  | cons twin twins ih =>
      simp only [Action.builtinArguments, twin.kind]
      split
      · exact ih
      · split
        · refine .bind (frames.valueOf twin.token) ?_
          rintro v _ rfl
          refine .bind ih ?_
          rintro ⟨args, rest⟩ ⟨args', rest'⟩ ⟨same, twins⟩
          exact .ok ⟨by rw [same], twins⟩
        · exact .ok ⟨rfl, .cons twin twins⟩

/-- A built-in function prints the same and gives the same value. -/
theorem callBuiltin (alone : tail = []) :
    place.Keeps (Action.callBuiltin f) m (Action.callBuiltin f') m' := by
  obtain ⟨front, split, twins⟩ := acts.twin.after
  rw [alone, List.append_nil] at split
  subst alone
  unfold Action.callBuiltin
  rw [split]
  generalize split' : f'.after = front' at twins
  cases twins with
  | nil => exact .stray acts.sink
  | cons twin twins =>
      dsimp only
      rw [twin.kind]
      cases Action.builtinName? _ with
      | none => exact .stray acts.sink
      | some name =>
          refine .next rfl rfl ?_
          refine .except acts.sink (builtinArguments acts.frames twins).known ?_
          rintro ⟨args, rest⟩ ⟨args', rest'⟩ ⟨read, read', same, twins⟩
          obtain ⟨used, taken, -⟩ := Action.builtinArguments_append read
          obtain ⟨used', taken', -⟩ := Action.builtinArguments_append read'
          obtain rfl : args' = args := same
          dsimp only
          rw [acts.frames.properties, acts.frames.sink]
          generalize Builtin.run name m.properties args' m.sink = called
          obtain ⟨sink, result⟩ := called
          have frames : place.Frames { m with sink } { m' with sink } :=
            { acts.frames with sink := rfl }
          refine .next rfl rfl (.cause rfl fun value? _ => .next rfl rfl ?_)
          cases value? with
          | some value =>
              refine settled (Action.settles_read
                (m := { m with sink }) acts.whole split taken value)
                (Action.settles_read (m := { m' with sink }) acts.whole' split' taken' value)
                acts.sound.distinct acts.sound'.distinct ?_
              exact placed_result (List.append_nil rest).symm acts.twin.before.reverse
                (acts.twin.cell.literal ..) twins frames acts.on 1
          | none =>
              refine .ok rfl rfl ?_
              exact placed_onLine [] rfl .nil (fun more => absurd rfl more) frames acts.on 0

/-!
## Parentheses
-/

omit acts in
theorem twins_boost {gap : Option Ref} {cells cells' : List Cell} (twins : Twins gap cells cells')
    (amount : Int) :
    Twins gap (cells.map (Line.boostCell amount)) (cells'.map (Line.boostCell amount)) := by
  induction twins with
  | nil => exact .nil
  | cons twin _ ih =>
      refine .cons ⟨⟨twin.kind, ?_, twin.token.expanded⟩, twin.ref, twin.other⟩ ih
      simp only [Line.boostCell, Token.boost, twin.token.priority]

/-- A parenthesis that is reached for the first time, or the group that it opens. -/
theorem applyParen {b : Bracket} (kind : f.cell.token.kind = .bracket b .opening)
    (round : b ≠ .scope) (called : ∀ inner close rest inner' close' rest',
    f.after = inner ++ close :: (rest ++ tail) →
      f'.after = inner' ++ close' :: rest' → Twins (place.gap t) inner inner' →
      close.Twin (place.gap t) close' → Twins (place.gap t) rest rest' →
      place.Keeps (Action.beginCall f inner close) m (Action.beginCall f' inner' close') m') :
    place.Keeps (Action.applyParen f b) m (Action.applyParen f' b) m' := by
  obtain ⟨front, split, twins⟩ := acts.twin.after
  rw [Action.applyParen, Action.applyParen, Line.enclosed_eq kind,
    Line.enclosed_eq (acts.twin.kind.trans kind), Action.ofFault_ok_bind,
      Action.ofFault_ok_bind, split]
  rcases Line.splitClose?_twins round acts.braces 0 twins with ⟨none, none'⟩ |
    ⟨inner, close, rest, inner', close', rest', found, found', cells, hinner, hclose, hrest⟩
  · rw [none, none']
    exact .fail acts.sink rfl
  · have after' := Line.splitClose?_append found'
    have ahead : f.after = inner ++ close :: (rest ++ tail) := by
      rw [split, cells, List.append_assoc, List.cons_append]
    rw [found, found']
    dsimp only
    rw [acts.twin.cell.token.expanded]
    cases expanded : f.cell.token.expanded with
    | false =>
        refine settled (Action.settles_reached acts.whole ahead)
          (Action.settles_reached acts.whole' after'.symm) acts.sound.distinct acts.sound'.distinct
            ?_
        rw [Line.boostUntil_inner acts.sound.distinct acts.whole ahead,
          Line.boostUntil_inner acts.sound'.distinct acts.whole' after'.symm]
        have reached : Cell.Twin (place.gap t)
            { f.cell with token := { f.cell.token with expanded := true } }
            { f'.cell with token := { f'.cell.token with expanded := true } } :=
          ⟨⟨acts.twin.kind, acts.twin.cell.token.priority, rfl⟩, acts.twin.cell.ref,
            acts.twin.cell.other⟩
        have placed := placed_result rfl (acts.twin.before.reverse.append
          (.cons reached (twins_boost hinner Priority.boost))) hclose hrest acts.frames acts.on 0
        simpa only [List.append_assoc, List.cons_append] using placed
    | true =>
        by_cases call : b = .call
        · simp only [Bool.not_true, Bool.false_eq_true, if_false, if_pos call]
          exact called inner close rest inner' close' rest' ahead after'.symm hinner hclose hrest
        · simp only [Bool.not_true, Bool.false_eq_true, if_false, if_neg call]
          -- A group must have come to one operand.
          cases hinner with
          | nil => exact .fail acts.sink rfl
          | cons twin more =>
              cases more with
              | cons _ _ => exact .stray acts.sink
              | nil =>
                  dsimp only
                  rw [twin.kind]
                  split
                  · refine settled (Action.settles_unwrapped acts.whole ahead)
                      (Action.settles_unwrapped acts.whole' after'.symm) acts.sound.distinct
                      acts.sound'.distinct ?_
                    exact placed_result rfl acts.twin.before.reverse twin
                      hrest acts.frames acts.on 0
                  · exact .stray acts.sink

end Acts

end Placement

end LineScript

import LineScript.Proofs.Placement.Headers
import LineScript.Proofs.Placement.Loops

/-!
# Keywords of control on both machines

A keyword that a block belongs to is looked up in the program.  Both machines then go to the same
token, define the same function or begin the same loop.
-/

namespace LineScript

namespace Placement

variable {p p' : Program} {place : Placement p.lines p'.lines} {m m' : Machine} {t n : Nat}
  {tail : List Cell} {f f' : Focus}

theorem Frames.register (frames : place.Frames m m') {g g' : Function}
    (same : place.SameFunction g g') :
    (∃ e e', m.functions.register g = .error e ∧ m'.functions.register g' = .error e' ∧
      e'.kind = e.kind) ∨
      ∃ fs fs', m.functions.register g = .ok fs ∧ m'.functions.register g' = .ok fs' ∧
        List.Forall₂ place.SameFunction fs.all fs'.all := by
  unfold Functions.register
  rw [same.name, frames.functions_contains]
  split
  · exact .inl ⟨_, _, rfl, rfl, rfl⟩
  · exact .inr ⟨_, _, rfl, rfl, List.rel_append frames.functions (.cons same .nil)⟩

namespace Acts

variable (acts : place.Acts t tail f f' m m')

include acts

theorem keywordAt (sane : m.Sane p n) {k : Keyword} (kind : f.cell.token.kind = .keyword k) :
    ∃ line line' before before' c c' front front' brace,
      place.KeywordAt t k line line' before before' c c' front front' brace ∧
      f.cell.ref = c.ref ∧ f'.cell.ref = c'.ref := by
  obtain ⟨line, before, c, after, found, cells, -, ref, kindC⟩ :=
    sane.position acts.whole (by rw [kind]; rfl)
  rw [acts.on.index] at found
  rw [kind] at kindC
  cases place.seen found cells with
  | brace _ _ _ _ _ brace =>
      rw [kindC] at brace
      cases brace
  | header other found' cells' _ twin same split onRight low _ _ rest =>
      refine ⟨line, _, before, _, c, _, _, _, _,
        ⟨found, found', split ▸ cells, cells', kindC, same, other, onRight, low, rest⟩,
        ref.symm, ?_⟩
      rw [acts.twin.cell.ref, ← ref, ← twin.ref]

theorem positionOf {c c' : Cell} (ref : f.cell.ref = c.ref) (ref' : f'.cell.ref = c'.ref) :
    m.positionOf f.cell = { line := t, token := c.ref } ∧
      m'.positionOf f'.cell = { line := place.index t, token := c'.ref } := by
  rw [Machine.positionOf, Machine.positionOf, acts.on.index, acts.on.index', ref, ref']
  exact ⟨rfl, rfl⟩

variable (balanced : p.Balanced) (loaded' : p'.Loaded) (sane : m.Sane p n)

include balanced loaded' sane

/-!
## Branches
-/

theorem takeBranch (kind : f.cell.token.kind = .keyword .if) {c c' : Cell}
    (twin : c.token.Twin c'.token) :
    place.Keeps (Action.takeBranch f c) m (Action.takeBranch f' c') m' := by
  obtain ⟨line, line', before, before', d, d', front, front', brace, at_d, ref, ref'⟩ :=
    acts.keywordAt sane kind
  obtain ⟨position, position'⟩ := acts.positionOf ref ref'
  unfold Action.takeBranch
  refine .value acts.frames twin fun v => ?_
  split
  · rename_i taken
    refine .next rfl rfl ?_
    rw [acts.frames.program, acts.frames.program', position, position', ← at_d.position]
    refine .except acts.sink
      (place.blockStart balanced.loaded loaded' at_d.found at_d.cells at_d.bare).known ?_
    rintro b _ ⟨started, -, rfl⟩
    have brace :=
      (Program.headedBy_of_blockStart balanced at_d.found at_d.cells at_d.bare started).brace
    refine .next rfl rfl ?_
    cases taken with
    | true =>
        rw [if_pos rfl, if_pos rfl]
        refine acts.frames.goTo balanced.loaded loaded' ?_
        rintro _ ⟨⟩
        exact brace.linked
    | false =>
        obtain ⟨close, ended, ended'⟩ := place.blockEnd balanced loaded' brace
        have block : p.IsBlock { opening := b, closing := close } := ⟨brace, ended⟩
        obtain ⟨_, ends⟩ := block.ends balanced
        have linked : p.Linked close := ends.linked
        obtain ⟨next, follows, follows', there⟩ := place.elseBranch balanced.loaded loaded' linked
        simp only [Bool.false_eq_true, if_false]
        rw [ended, ended']
        refine .next rfl rfl ?_
        rw [follows, follows']
        exact .next rfl rfl (acts.frames.goTo balanced.loaded loaded' there)
  · exact .fail acts.sink rfl

theorem branch (kind : f.cell.token.kind = .keyword .if) :
    place.Keeps (Action.branch f) m (Action.branch f') m' := by
  unfold Action.branch Action.rightOperand
  refine .operand acts.sink acts.next? fun c c' _ here twin => ?_
  have taken := acts.takeBranch balanced loaded' sane kind twin.token
  obtain ⟨front, split, twins⟩ := acts.twin.after_tail here
  rw [split]
  generalize f'.after.tail = front' at twins
  cases twins with
  | cons twin _ =>
      simp only [List.cons_append, List.head?_cons, twin.kind]
      split
      · exact .stray acts.sink
      · exact taken
  | nil =>
      cases acts.on.trails with
      | none => exact taken
      | brace _ kind =>
          simp only [List.nil_append, List.head?_cons, kind]
          exact taken

theorem passElse (kind : f.cell.token.kind = .keyword .else) :
    place.Keeps (Action.passElse f) m (Action.passElse f') m' := by
  obtain ⟨line, line', before, before', c, c', front, front', brace, at_c, ref, ref'⟩ :=
    acts.keywordAt sane kind
  obtain ⟨position, position'⟩ := acts.positionOf ref ref'
  unfold Action.passElse
  refine .next rfl rfl ?_
  rw [acts.frames.program, acts.frames.program', position, position']
  refine .except acts.sink (at_c.blockAfter balanced loaded') ?_
  rintro e _ ⟨rfl, block⟩
  obtain ⟨close, ends⟩ := block.ends balanced
  exact acts.frames.follow balanced.loaded loaded' ends.linked

/-!
## Definitions
-/

theorem define (kind : f.cell.token.kind = .keyword .define) :
    place.Keeps (Action.define f) m (Action.define f') m' := by
  obtain ⟨line, line', before, before', c, c', front, front', brace, at_c, ref, ref'⟩ :=
    acts.keywordAt sane kind
  unfold Action.define
  refine .next rfl rfl ?_
  dsimp only
  rw [acts.frames.program, acts.frames.program', acts.on.index, acts.on.index',
    Program.lineAt_eq at_c.found, Program.lineAt_eq at_c.found', ref, ref']
  refine .next rfl rfl ?_
  rw [(balanced.loaded.line at_c.found).focus before at_c.cells,
    (loaded'.line at_c.found').focus before' at_c.cells']
  refine .next rfl rfl ?_
  dsimp only
  rcases Action.functionHeader?_twins at_c.braces at_c.twins with ⟨none, none'⟩ |
    ⟨type, text, lead, opening, opening', after, after', read, read', split, called, called', twins⟩
  · rw [none, none']
    exact .fail acts.sink rfl
  rw [read, read']
  dsimp only
  rw [Line.enclosed_eq called, Line.enclosed_eq called', Action.ofFault_ok_bind,
    Action.ofFault_ok_bind]
  rcases Line.splitClose?_twins (b := .call) nofun at_c.braces 0 twins with ⟨none, none'⟩ |
    ⟨inner, close, more, inner', close', more', found, found', inside, hinner, hclose, -⟩
  · rw [none, none']
    exact .fail acts.sink rfl
  · rw [found, found']
    dsimp only
    rw [Action.readParameters_twins hinner]
    have split : front = (lead ++ inner) ++ close :: more := by
      rw [split, inside, List.append_assoc]
    refine .cause acts.sink fun parameters _ => ?_
    refine .except acts.sink (at_c.blockAfter_later balanced loaded' split hclose
      (by rw [Action.kind_splitClose? found]; rfl)) ?_
    rintro e _ ⟨rfl, block⟩
    refine .next rfl rfl ?_
    have same : place.SameFunction
        { name := text, parameters, returns := type, body := e, line := c.token.line }
        { name := text, parameters, returns := type, body := place.extent e
          line := c'.token.line } :=
      ⟨rfl, rfl, rfl, rfl, block⟩
    rcases acts.frames.register same with ⟨err, err', failed, failed', kind⟩ |
      ⟨fs, fs', done, done', all⟩
    · rw [failed, failed']
      exact .raise acts.sink kind
    · rw [done, done']
      refine .next rfl rfl ?_
      obtain ⟨close, ends⟩ := block.ends balanced
      have defined : place.Frames { m with functions := fs } { m' with functions := fs' } :=
        { acts.frames with functions := all }
      exact defined.follow balanced.loaded loaded' ends.linked

/-!
## Loops
-/

theorem startWhile (numbered : ∀ line ∈ p.lines, line.Numbered)
    (numbered' : ∀ line ∈ p'.lines, line.Numbered) (kind : f.cell.token.kind = .keyword .while) :
    place.Keeps (Action.startWhile f) m (Action.startWhile f') m' := by
  obtain ⟨line, line', before, before', c, c', front, front', brace, at_c, ref, ref'⟩ :=
    acts.keywordAt sane kind
  obtain ⟨position, position'⟩ := acts.positionOf ref ref'
  unfold Action.startWhile
  refine .next rfl rfl ?_
  dsimp only
  rw [acts.frames.program, acts.frames.program', position, position', acts.on.index, acts.on.index']
  refine .except acts.sink (at_c.blockAfter balanced loaded').known ?_
  rintro e _ ⟨made, -, rfl, block⟩
  rw [Program.lineAt_eq at_c.found, Program.lineAt_eq at_c.found']
  refine .next rfl rfl ?_
  obtain ⟨span, condition, condition', clear⟩ :=
    at_c.whileCondition balanced loaded' numbered numbered'
    (Program.blockStart_of_blockAfter made)
  rw [ref, ref', condition, show (place.extent e).opening =
    place.position e.opening from rfl, condition']
  refine .next rfl rfl ?_
  refine .bind (acts.frames.beginLoop block ?_) ?_
  · rintro part (span | none)
    · exact clear part span
    · cases none
  · rintro _ _ n n' ⟨frames, running⟩
    exact frames.testLoop balanced loaded' fun none => absurd none running

theorem startFor (kind : f.cell.token.kind = .keyword .for) :
    place.Keeps (Action.startFor f) m (Action.startFor f') m' := by
  obtain ⟨line, line', before, before', c, c', front, front', brace, at_c, ref, ref'⟩ :=
    acts.keywordAt sane kind
  unfold Action.startFor
  refine .next rfl rfl ?_
  dsimp only
  rw [acts.frames.program, acts.frames.program', acts.on.index, acts.on.index',
    Program.lineAt_eq at_c.found, Program.lineAt_eq at_c.found', ref, ref']
  refine .next rfl rfl ?_
  rw [(balanced.loaded.line at_c.found).focus before at_c.cells,
    (loaded'.line at_c.found').focus before' at_c.cells']
  refine .next rfl rfl ?_
  dsimp only
  have twins := at_c.twins
  generalize cells : front = cells, cells' : front' = cells' at twins
  cases twins with
  | nil =>
      -- A brace cannot open the parts of a header.
      cases brace with
      | nil => exact .fail acts.sink rfl
      | cons d brace =>
          simp only [List.nil_append, at_c.braces.braces d (by simp)]
          exact .fail acts.sink rfl
  | @cons opening opening' rest rest' twin twins =>
      simp only [List.cons_append, twin.kind]
      by_cases paren : opening.token.kind ≠ .bracket .paren .opening
      · rw [if_pos paren, if_pos paren]
        exact .fail acts.sink rfl
      rw [if_neg paren, if_neg paren, Line.enclosed_eq (Classical.not_not.1 paren),
        Line.enclosed_eq (twin.kind.trans (Classical.not_not.1 paren)), Action.ofFault_ok_bind,
        Action.ofFault_ok_bind]
      rcases Line.splitClose?_twins (b := .paren) nofun at_c.braces 0 twins with ⟨none, none'⟩ |
        ⟨inner, close, more, inner', close', more', found, found', split, hinner, hclose, -⟩
      · rw [none, none']
        exact .fail acts.sink rfl
      rw [found, found']
      have front : front = (opening :: inner) ++ close :: more := by rw [cells, split]; rfl
      have low : ∀ d ∈ inner, ∀ n, place.gap t = some n → d.ref < n := fun d hd =>
        at_c.low d (by simp [front, hd])
      dsimp only
      rw [Action.headerParts_twins hinner low]
      split
      · rename_i init condition step parts
        refine .except acts.sink (at_c.blockAfter_later balanced loaded' front hclose
          (by rw [Action.kind_splitClose? found]; rfl)) ?_
        rintro e _ ⟨rfl, block⟩
        have clear : ∀ part, some part ∈ Action.headerParts none inner →
            place.gap t ≠ some part.1 ∧ place.gap t ≠ some part.2 := by
          intro part member
          obtain ⟨first, last⟩ := Machine.mem_headerParts member (inner.map Cell.ref)
            (fun d hd => List.mem_map_of_mem hd) nofun
          exact ⟨ne_of_low low first, ne_of_low low last⟩
        refine .bind (acts.frames.beginLoop block ?_) ?_
        · rintro part (rfl | rfl)
          · exact clear part (by simp [parts])
          · exact clear part (by simp [parts])
        · rintro _ _ n n' ⟨frames, running⟩
          cases init with
          | none => exact frames.testLoop balanced loaded' fun none => absurd none running
          | some part =>
              obtain ⟨first, last⟩ := clear part (by simp [parts])
              exact frames.workOnHeader t first last nofun
      · exact .fail acts.sink rfl

end Acts

end Placement

end LineScript

import LineScript.Proofs.Cells
import LineScript.Proofs.Outcome

/-!
# What the reductions leave of a line

The actions that reduce a line edit it by reference, one token after the other.  What comes of the
edits of one reduction is said here once, by the cells of the line (`Action.Settles`): where its
references are distinct no edit comes to a fault, and in any line the reduction leaves those cells
or comes to one.
-/

namespace LineScript

namespace Machine

def onLine (m : Machine) (cells : List Cell) (ids : Nat) : Machine :=
  { m with
    nextId := m.nextId + ids
    work := { m.work with line := m.work.line.withCells cells } }

section

variable (m : Machine) (cells cells' : List Cell) (ids ids' : Nat)

@[simp] theorem onLine_cells : (m.onLine cells ids).work.line.cells = cells := rfl

@[simp] theorem onLine_symbols : (m.onLine cells ids).symbols = m.symbols := rfl

@[simp] theorem onLine_finished : (m.onLine cells ids).finished = m.finished := rfl

@[simp] theorem onLine_selected : (m.onLine cells ids).work.selected = m.work.selected := rfl

@[simp] theorem valueOf_onLine (t : Token) : (m.onLine cells ids).valueOf t = m.valueOf t := rfl

@[simp] theorem onLine_onLine :
    (m.onLine cells ids).onLine cells' ids' = m.onLine cells' (ids + ids') := by
  simp [onLine, Line.withCells, Nat.add_assoc]

theorem onLine_self : m.onLine m.work.line.cells 0 = m := rfl

end

end Machine

def Cell.answered (c : Cell) (value : Value) (id : Nat) : Cell :=
  { c with token := .literal value id c.token.line }

def Line.Distinct (l : Line) : Prop :=
  l.refs.Nodup

theorem Line.Distinct.fewer {l l' : Line} (distinct : l.Distinct) (fewer : l'.refs.Sublist l.refs) :
    l'.Distinct :=
  fewer.nodup distinct

namespace Action

variable {m m₁ m₂ : Machine} {x y : Action Unit} {P : Line → Prop} {c d l r : Cell}
  {before after cells cells' : List Cell} {f : Focus}

/-- The action leaves another machine and keeps a property of the working line, or comes to a fault
and the line does not have the property. -/
def Settles (P : Line → Prop) (x : Action Unit) (m m' : Machine) : Prop :=
  (x m = { machine := m', events := [], result := .ok () } ∧ (P m.work.line → P m'.work.line)) ∨
    ¬ P m.work.line ∧ ∃ fault, (x m).result = .error (.fault fault)

theorem Settles.apply (settles : Settles P x m m₁) (holds : P m.work.line) :
    x m = { machine := m₁, events := [], result := .ok () } :=
  (settles.resolve_right fun failed => failed.1 holds).1

theorem Settles.outcome (settles : Settles P x m m₁) (holds : P m.work.line) :
    x.outcome m = .ok ((), m₁) := by
  rw [Action.outcome, settles.apply holds]
  rfl

theorem Settles.of_ok {u : Unit} (settles : Settles P x m m₁) (ran : x.outcome m = .ok (u, m₂)) :
    m₂ = m₁ := by
  rcases settles with ⟨made, -⟩ | ⟨-, fault, failed⟩
  · rw [Action.outcome, made] at ran
    cases ran
    rfl
  · rw [Action.outcome, failed] at ran
    cases ran

theorem Settles.bind (first : Settles P x m m₁) (second : Settles P y m₁ m₂) :
    Settles P (x >>= fun _ => y) m m₂ := by
  rcases first with ⟨made, kept⟩ | ⟨broken, fault, failed⟩
  · have onward : (x >>= fun _ => y) m = y m₁ := by
      rw [bind_of_ok _ (show (x m).result = .ok () by rw [made]), made]
      rfl
    rw [Settles, onward]
    exact second.imp (And.imp_right (· ∘ kept)) (And.imp_left (mt kept))
  · exact .inr ⟨broken, fault, by rw [bind_of_error _ failed]⟩

theorem ofFault_ok_bind {α β : Type} (a : α) (g : α → Action β) :
    (ofFault (.ok a) >>= g) = g a := rfl

theorem edit_apply (change : Line → Except Fault Line) (m : Machine) :
    edit change m =
      match change m.work.line with
      | .ok line =>
          { machine := { m with work := { m.work with line } }, events := [], result := .ok () }
      | .error fault => { machine := m, events := [], result := .error (.fault fault) } := by
  rw [edit, bind_of_ok _ rfl, bind_apply]
  cases change m.work.line <;> rfl

theorem settles_change {change : Line → Except Fault Line} {line : Line}
    (becomes : Line.Becomes change m.work.line line)
    (distinct : P m.work.line → m.work.line.Distinct)
    (kept : P m.work.line → P line) :
    Settles P (edit change) m { m with work := { m.work with line } } := by
  rw [Settles, edit_apply]
  rcases becomes with made | ⟨twice, fault, failed⟩
  · exact .inl ⟨by rw [made], kept⟩
  · exact .inr ⟨mt distinct twice, fault, by rw [failed]⟩

theorem settles_edit {change : Line → Except Fault Line}
    (becomes : Line.Becomes change (m.work.line.withCells cells) (m.work.line.withCells cells'))
    (fewer : (cells'.map Cell.ref).Sublist (cells.map Cell.ref)) (ids : Nat) :
    Settles Line.Distinct (edit change) (m.onLine cells ids) (m.onLine cells' ids) :=
  settles_change (m := m.onLine cells ids) becomes id fun distinct => distinct.fewer fewer

theorem settles_remove (m : Machine) (before : List Cell) (c : Cell) (after : List Cell)
    (ids : Nat) :
    Settles Line.Distinct (remove c.ref) (m.onLine (before ++ c :: after) ids)
      (m.onLine (before ++ after) ids) :=
  settles_edit (Line.becomes_remove (l := m.work.line.withCells (before ++ c :: after)) rfl)
    (((List.sublist_cons_self c after).append_left before).map _) ids

theorem settles_removeEach (m : Machine) (before : List Cell) (c : Cell) (after : List Cell)
    (ids : Nat) :
    Settles Line.Distinct (removeEach [c]) (m.onLine (before ++ c :: after) ids)
      (m.onLine (before ++ after) ids) :=
  (settles_remove m before c after ids).bind (.inl ⟨rfl, id⟩)

theorem settles_answer (m : Machine) (before : List Cell) (c : Cell) (after : List Cell)
    (value : Value) :
    Settles Line.Distinct (answer c.ref value) (m.onLine (before ++ c :: after) 0)
      (m.onLine (before ++ c.answered value m.nextId :: after) 1) := by
  have line : (m.onLine (before ++ c :: after) 0).work.line.cells = before ++ c :: after := rfl
  have replaced := settles_edit (m := m) (Line.becomes_modify
    (l := m.work.line.withCells (before ++ c :: after)) rfl
    fun _ => .literal value m.nextId c.token.line) (by simp) 1
  rcases Line.focus_cases line with found | ⟨twice, missed⟩
  · have looked : (m.onLine (before ++ c :: after) 0).work.line.get c.ref = .ok c.token := by
      rw [Line.get, found]
      rfl
    have onward : answer c.ref value (m.onLine (before ++ c :: after) 0) =
        edit (fun line => line.replace c.ref (.literal value m.nextId c.token.line))
          (m.onLine (before ++ c :: after) 1) := by
      rw [answer, bind_of_ok _ rfl, bind_apply]
      simp only [get_apply, ofFault, ofExcept_apply, looked]
      rfl
    rw [Settles, onward]
    exact replaced
  · refine .inr ⟨twice, .unlinked c.ref, ?_⟩
    have missed : (m.onLine (before ++ c :: after) 0).work.line.get c.ref =
        .error (.unlinked c.ref) := by
      rw [Line.get, missed]
      rfl
    rw [answer, bind_of_ok _ rfl, bind_apply]
    simp only [get_apply, ofFault, ofExcept_apply, missed]
    rfl

theorem assignmentTarget?_eq {name : String} {declared : Option ValueType} {cells rest : List Cell}
    (target : assignmentTarget? cells = some (name, declared, rest)) :
    ∃ t, t.token.kind = .name name ∧
      (declared = none ∧ cells = t :: rest ∨
        ∃ c type, declared = some type ∧ c.token.kind = .type type ∧ cells = t :: c :: rest) := by
  cases cells with
  | nil => cases target
  | cons t before =>
      refine ⟨t, ?_⟩
      rw [assignmentTarget?] at target
      split at target
      · rename_i kind
        split at target
        · cases target
          exact ⟨kind, .inl ⟨rfl, rfl⟩⟩
        · rename_i c more
          split at target
          · rename_i type kindC
            cases target
            exact ⟨kind, .inr ⟨c, type, rfl, kindC, rfl⟩⟩
          · cases target
            exact ⟨kind, .inl ⟨rfl, rfl⟩⟩
      · cases target

/-!
## The reductions
-/

section

variable (whole : f.cells = m.work.line.cells)

include whole

theorem onLine_whole : m.onLine (f.before.reverse ++ f.cell :: f.after) 0 = m := by
  rw [show f.before.reverse ++ f.cell :: f.after = m.work.line.cells from whole,
    Machine.onLine_self]

theorem settles_between (prev : f.prev? = some l) (next : f.next? = some r) (value : Value) :
    Settles Line.Distinct (do answer f.cell.ref value; remove l.ref; remove r.ref) m
      (m.onLine (f.before.tail.reverse ++ f.cell.answered value m.nextId :: f.after.tail) 1) := by
  have answered := settles_answer m f.before.reverse f.cell f.after value
  rw [onLine_whole whole, Focus.eq_of_prev? prev, Focus.eq_of_next? next] at answered
  have both := settles_remove m (f.before.tail.reverse) l
    (f.cell.answered value m.nextId :: r :: f.after.tail) 1
  have right := settles_remove m (f.before.tail.reverse ++ [f.cell.answered value m.nextId]) r
    f.after.tail 1
  simp only [List.reverse_cons, List.append_assoc, List.cons_append, List.nil_append]
    at answered right
  exact answered.bind (both.bind right)

theorem settles_before (next : f.next? = some r) (value : Value) :
    Settles Line.Distinct (do answer f.cell.ref value; remove r.ref) m
      (m.onLine (f.before.reverse ++ f.cell.answered value m.nextId :: f.after.tail) 1) := by
  have answered := settles_answer m f.before.reverse f.cell f.after value
  rw [onLine_whole whole, Focus.eq_of_next? next] at answered
  have right := settles_remove m (f.before.reverse ++ [f.cell.answered value m.nextId]) r
    f.after.tail 1
  simp only [List.append_assoc, List.cons_append, List.nil_append] at right
  exact answered.bind right

theorem settles_wait (priority : Int) :
    Settles Line.Distinct (edit fun line => line.setPriority f.cell.ref priority) m
      (m.onLine ({ f with
        cell := { f.cell with token := { f.cell.token with priority } } } : Focus).cells 0) := by
  have waits := settles_edit (m := m) (Line.becomes_modify
    (l := m.work.line.withCells (f.before.reverse ++ f.cell :: f.after)) rfl
    fun t => { t with priority }) (by simp) 0
  rwa [onLine_whole whole] at waits

theorem settles_drop :
    Settles Line.Distinct (remove f.cell.ref) m (m.onLine (f.before.reverse ++ f.after) 0) := by
  have dropped := settles_remove m f.before.reverse f.cell f.after 0
  rwa [onLine_whole whole] at dropped

/-- A value takes the place of an assignment, of its target and of its source. -/
theorem settles_assigned {name : String} {declared : Option ValueType} {rest : List Cell}
    (target : assignmentTarget? f.before = some (name, declared, rest)) (next : f.next? = some r)
    (value : Value) :
    Settles Line.Distinct
      (do
        if declared.isSome then removeEach (f.before.tail.take 1)
        answer f.cell.ref value
        removeEach (f.before.take 1)
        remove r.ref) m
      (m.onLine (rest.reverse ++ f.cell.answered value m.nextId :: f.after.tail) 1) := by
  obtain ⟨t, -, ⟨rfl, before⟩ | ⟨c, type, rfl, -, before⟩⟩ := assignmentTarget?_eq target
  · have answered := settles_answer m f.before.reverse f.cell f.after value
    rw [onLine_whole whole, before, List.reverse_cons, Focus.eq_of_next? next] at answered
    have named := settles_removeEach m rest.reverse t
      (f.cell.answered value m.nextId :: r :: f.after.tail) 1
    have right := settles_remove m (rest.reverse ++
      [f.cell.answered value m.nextId]) r f.after.tail 1
    simp only [List.append_assoc, List.cons_append, List.nil_append] at answered right
    rw [before]
    exact answered.bind (named.bind right)
  · have declared := settles_removeEach m rest.reverse c ([t] ++ f.cell :: f.after) 0
    have same : rest.reverse ++ c :: ([t] ++ f.cell :: f.after) = f.before.reverse ++
      f.cell :: f.after := by
      simp [before]
    rw [same, onLine_whole whole, ← List.append_assoc, Focus.eq_of_next? next] at declared
    have answered := settles_answer m (rest.reverse ++ [t]) f.cell (r :: f.after.tail) value
    have named := settles_removeEach m rest.reverse t
      (f.cell.answered value m.nextId :: r :: f.after.tail) 1
    have right := settles_remove m (rest.reverse ++
      [f.cell.answered value m.nextId]) r f.after.tail 1
    simp only [List.append_assoc, List.cons_append, List.nil_append] at declared answered right
    rw [before]
    exact declared.bind (answered.bind (named.bind right))

theorem settles_consumed {used rest : List Cell} (ahead : f.after = used ++ d :: rest)
    (value : Value) :
    Settles Line.Distinct
      (do
        edit fun line => line.dropAfter f.cell.ref d.ref
        answer f.cell.ref value) m
      (m.onLine (f.before.reverse ++ f.cell.answered value m.nextId :: rest) 1) := by
  have dropped := settles_edit (m := m) (Line.becomes_dropAfter
    (l := m.work.line.withCells (f.before.reverse ++ f.cell :: (used ++ d :: rest))) rfl)
    (by
      have fewer := List.sublist_append_right (used ++ [d]) rest
      rw [List.append_assoc] at fewer
      exact ((fewer.cons_cons f.cell).append_left f.before.reverse).map _) 0
  rw [← ahead, onLine_whole whole] at dropped
  exact dropped.bind (settles_answer m f.before.reverse f.cell rest value)

theorem settles_read {target : Cell} {following used rest : List Cell}
    (ahead : f.after = target :: following) (read : following = used ++ rest) (value : Value) :
    Settles Line.Distinct
      (do
        edit fun line => line.dropAfter f.cell.ref (lastBefore target following rest).ref
        answer f.cell.ref value) m
      (m.onLine (f.before.reverse ++ f.cell.answered value m.nextId :: rest) 1) := by
  have taken : following.take (following.length - rest.length) = used := by
    rw [read, List.length_append, Nat.add_sub_cancel, List.take_left]
  rw [lastBefore, taken]
  rcases List.eq_nil_or_concat used with rfl | ⟨front, d, rfl⟩
  · have ahead : f.after = [] ++ target :: rest := by simp [ahead, read]
    exact settles_consumed whole ahead value
  · rw [List.concat_eq_append, List.getLast?_concat, Option.getD_some]
    rw [List.concat_eq_append] at read
    have ahead : f.after = (target :: front) ++ d :: rest := by simp [ahead, read]
    exact settles_consumed whole ahead value

theorem settles_reached {inner rest : List Cell} {close : Cell}
    (ahead : f.after = inner ++ close :: rest) :
    Settles Line.Distinct
      (do
        edit fun line => line.boostInside f.cell.ref close.ref Priority.boost
        edit fun line => line.modify f.cell.ref fun t => { t with expanded := true }) m
      (m.onLine (f.before.reverse ++
        { f.cell with token := { f.cell.token with expanded := true } } ::
        (Line.boostUntil close.ref Priority.boost inner ++ close :: rest)) 0) := by
  have boosted := settles_edit (m := m) (Line.becomes_boostInside
    (l := m.work.line.withCells (f.before.reverse ++ f.cell :: (inner ++ close :: rest))) rfl
    close.ref Priority.boost) (by simp) 0
  rw [← ahead, onLine_whole whole, ahead, Line.boostUntil_append] at boosted
  exact boosted.bind (settles_edit (Line.becomes_modify (l := m.work.line.withCells
    (f.before.reverse ++ f.cell :: (Line.boostUntil close.ref Priority.boost
      inner ++ close :: rest)))
    rfl fun t => { t with expanded := true }) (by simp) 0)

theorem settles_unwrapped {close : Cell} {rest : List Cell} (ahead : f.after = d :: close :: rest) :
    Settles Line.Distinct (do remove f.cell.ref; remove close.ref) m
      (m.onLine (f.before.reverse ++ d :: rest) 0) := by
  have opening := settles_remove m f.before.reverse f.cell f.after 0
  rw [onLine_whole whole, ahead] at opening
  have closing := settles_remove m (f.before.reverse ++ [d]) close rest 0
  simp only [List.append_assoc, List.cons_append, List.nil_append] at closing
  exact opening.bind closing

end

theorem settles_returned {name : Ref} (found : m.work.line.focus name = .ok f) (closing : Ref)
    (value : Value) :
    Settles Line.Distinct
      (do
        edit fun line => line.dropAfter name closing
        answer name value) m
      (m.onLine (f.before.reverse ++ f.cell.answered value m.nextId ::
        (f.after.dropWhile fun c => c.ref ≠ closing).drop 1) 1) := by
  obtain ⟨whole, rfl⟩ := Line.focus_ok found
  have fewer : ((f.after.dropWhile fun c => c.ref ≠ closing).drop 1).Sublist f.after :=
    (List.drop_sublist 1 _).trans (List.dropWhile_sublist _)
  have dropped := settles_edit (m := m) (Line.becomes_dropAfter_ref
    (l := m.work.line.withCells (f.before.reverse ++ f.cell :: f.after)) rfl closing)
    (((fewer.cons_cons f.cell).append_left f.before.reverse).map _) 0
  rw [onLine_whole whole] at dropped
  exact dropped.bind (settles_answer m f.before.reverse f.cell _ value)

theorem focus_of_returned {name closing : Ref} {value : Value} {u : Unit}
    (ran : (do
      edit fun line => line.dropAfter name closing
      answer name value : Action Unit).outcome m = .ok (u, m₁)) :
    ∃ f, m.work.line.focus name = .ok f := by
  obtain ⟨⟨⟩, m₂, dropped, -⟩ := outcome_bind_ok ran
  cases found : m.work.line.focus name with
  | ok f => exact ⟨f, rfl⟩
  | error fault =>
      have missed : m.work.line.dropAfter name closing = .error fault := by
        rw [Line.dropAfter, Line.dropFollowing_succ, Line.next, found]
        rfl
      rw [Action.outcome, edit_apply, missed] at dropped
      cases dropped

/-!
## Templates
-/

def chainCells (line : Nat) (priority : Int) : Ref → Nat → List TokenKind → List Cell
  | _, _, [] => []
  | ref, id, kind :: kinds =>
      { ref, token := pieceToken line priority kind id } ::
        chainCells line priority (ref + 1) (id + 1) kinds

theorem settles_insertPieces (line : Nat) (priority : Int) (kinds : List TokenKind)
    (cells : m.work.line.cells = before ++ c :: after) :
    Settles Line.Sound (insertPieces c.ref line priority kinds) m
      { m with
        nextId := m.nextId + kinds.length
        work :=
          { m.work with
            line :=
              { cells := before ++
                  chainCells line priority m.work.line.nextRef m.nextId kinds ++ c :: after
                nextRef := m.work.line.nextRef + kinds.length } } } := by
  induction kinds generalizing m before with
  | nil =>
      refine .inl ⟨?_, fun sound => ?_⟩
      · simp [insertPieces, chainCells, ← cells]
      · simpa [chainCells, ← cells] using sound
  | cons kind kinds ih =>
      let numbered : Machine := { m with nextId := m.nextId + 1 }
      have put : Settles Line.Sound
          (edit fun l => l.insertBefore c.ref
            (pieceToken line priority kind m.nextId)) numbered _ :=
        settles_change (m := numbered) (Line.becomes_insertBefore cells _) Line.Sound.distinct
          fun sound => sound.insert cells _
      let new : Cell := ⟨m.work.line.nextRef, pieceToken line priority kind m.nextId⟩
      have longer : before ++ new :: c :: after = (before ++ [new]) ++ c :: after := by simp
      have onward := put.bind (ih longer)
      have same : insertPieces c.ref line priority (kind :: kinds) m =
          (do
            edit fun l => l.insertBefore c.ref (pieceToken line priority kind m.nextId)
            insertPieces c.ref line priority kinds : Action Unit) numbered := rfl
      rw [Settles, same]
      simpa [Settles, numbered, new, chainCells, Nat.add_assoc, Nat.add_comm 1] using onward

theorem settles_expanded (whole : f.cells = m.work.line.cells) (priority : Int)
    (kinds : List TokenKind) :
    Settles Line.Sound
      (do
        insertPieces f.cell.ref f.cell.token.line priority kinds
        remove f.cell.ref) m
      { m with
        nextId := m.nextId + kinds.length
        work :=
          { m.work with
            line :=
              { cells := f.before.reverse ++
                  chainCells f.cell.token.line priority m.work.line.nextRef
                    m.nextId kinds ++ f.after
                nextRef := m.work.line.nextRef + kinds.length } } } := by
  have put := settles_insertPieces f.cell.token.line priority kinds (c := f.cell) whole.symm
  refine put.bind (settles_change (Line.becomes_remove rfl) Line.Sound.distinct fun sound => ?_)
  exact sound.withCells (((List.sublist_cons_self _ _).append_left _).map _)

end Action

end LineScript

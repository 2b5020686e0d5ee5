import LineScript.Proofs.Safety.Reachable
import LineScript.Table

/-!
# Tables and lists of variables

A table of a map, an order and marks stands for a list of variables with the same marks
(`Table.Represents`).  Every operation does the same to both: it succeeds on both, or is refused for
the same cause and leaves the table as it was.  So what holds of well-formed lists holds of all
tables that operations make of the empty one; in particular no scope is ever cut past the end of the
order.
-/

namespace LineScript

/-!
## Looking names up
-/

namespace Symbols

variable {name : String} {value : Value} {bindings : List (String × Variable)}

theorem lookup_cons_ne {m n : String} (other : n ≠ m) (v : Variable) :
    ((m, v) :: bindings).lookup n = bindings.lookup n := by
  rw [List.lookup_cons, beq_eq_false_iff_ne.2 other]

theorem lookup_setValue (n : String) :
    (setValue name value bindings).lookup n =
      if n = name then (bindings.lookup n).map fun v => { v with value }
        else bindings.lookup n := by
  induction bindings with
  | nil => simp [setValue]
  | cons first rest ih =>
      obtain ⟨m, v⟩ := first
      by_cases same : m = name
      · subst same
        rw [setValue, if_pos rfl]
        by_cases here : n = m
        · subst here
          simp
        · rw [if_neg here, lookup_cons_ne here, lookup_cons_ne here]
      · rw [setValue, if_neg same]
        by_cases here : n = m
        · subst here
          simp [same]
        · rw [lookup_cons_ne here, lookup_cons_ne here, ih]

theorem lookup_take (distinct : (bindings.map Prod.fst).Nodup) (mark : Nat) (n : String) :
    (bindings.take mark).lookup n =
      if n ∈ (bindings.drop mark).map Prod.fst then none else bindings.lookup n := by
  have split : bindings.lookup n =
      ((bindings.take mark).lookup n).or ((bindings.drop mark).lookup n) := by
    rw [← List.lookup_append, List.take_append_drop]
  have unbound {part : List (String × Variable)} (absent : n ∉ part.map Prod.fst) :
      part.lookup n = none := get?_eq_none_iff (s := ⟨part, []⟩).2 absent
  split
  · rename_i later
    rw [← List.take_append_drop mark bindings, List.map_append, List.nodup_append] at distinct
    exact unbound fun early => distinct.2.2 n early n later rfl
  · rename_i absent
    rw [split, unbound absent, Option.or_none]

end Symbols

namespace Table

variable {α β : Type} {t t' : Table} {s s' : Symbols} {name : String} {value : Value}

/-- The order lists the names of the variables, and the map has these and no others. -/
structure Represents (t : Table) (s : Symbols) : Prop where
  order : t.order = s.names
  marks : t.marks = s.marks
  entries : ∀ name, t.entries name = s.get? name

theorem Represents.contains_eq (represents : t.Represents s) (name : String) :
    t.contains name = s.contains name := by
  rw [Table.contains, Symbols.contains, represents.entries]

theorem Represents.size_eq (represents : t.Represents s) : t.order.length = s.size := by
  rw [represents.order, Symbols.names, List.length_map, Symbols.size]

/-!
## One operation
-/

/-- A change of a table leaves one that stands for the list, or it is refused and
changes nothing. -/
def Agrees (x : Change α) (t : Table) (v : α) : Except Cause Symbols → Prop
  | .ok s => ∃ t', x t = .ok v t' ∧ t'.Represents s
  | .error cause => x t = .error (.refused cause) t

theorem bind_of_ok {x : Change α} {v : α} (ran : x t = .ok v t') (f : α → Change β) :
    (x >>= f) t = f v t' := by
  change EStateM.bind x f t = _
  rw [EStateM.bind, ran]

theorem get_bind (f : Table → Change β) : (get >>= f) t = f t t := rfl

theorem Represents.add (represents : t.Represents s) (name : String) (type : ValueType)
    (value : Value) (origin : Origin) :
    Agrees (Table.add name type value origin) t () (s.add name type value origin) := by
  rw [Symbols.add, ← represents.contains_eq]
  split
  case isTrue bound =>
    rw [Agrees, Table.add, get_bind, if_pos bound]
    rfl
  case isFalse unbound =>
    split
    case isTrue other =>
      rw [Agrees, Table.add, get_bind, if_neg unbound, if_pos other]
      rfl
    case isFalse typed =>
      rw [Agrees, Table.add, get_bind, if_neg unbound, if_neg typed]
      refine ⟨_, rfl, ?_, represents.marks, fun n => ?_⟩
      · simp [represents.order, Symbols.names]
      · have fresh : s.bindings.lookup name = none := by
          rwa [represents.contains_eq, Symbols.contains, Option.not_isSome_iff_eq_none] at unbound
        change (if n = name then _ else t.entries n) = _
        rw [represents.entries, Symbols.get?, Symbols.get?, List.lookup_append]
        by_cases here : n = name
        · subst here
          simp [fresh]
        · rw [if_neg here, Symbols.lookup_cons_ne here, List.lookup_nil, Option.or_none]

theorem Represents.update (represents : t.Represents s) (name : String) (value : Value) :
    Agrees (Table.update name value) t () (s.update name value) := by
  rw [Symbols.update, ← represents.entries]
  cases found : t.entries name with
  | none =>
      rw [Agrees, Table.update, get_bind, found]
      rfl
  | some v =>
      by_cases typed : value.type ≠ v.type
      · simp only [if_pos typed]
        rw [Agrees, Table.update, get_bind, found]
        simp only [if_pos typed]
        rfl
      · simp only [if_neg typed]
        rw [Agrees, Table.update, get_bind, found]
        simp only [if_neg typed]
        refine ⟨_, rfl, ?_, represents.marks, fun n => ?_⟩
        · simp [represents.order, Symbols.names]
        · rw [represents.entries, Symbols.get?] at found
          change (if n = name then _ else t.entries n) = _
          rw [represents.entries, Symbols.get?, Symbols.get?, Symbols.lookup_setValue]
          by_cases here : n = name
          · rw [if_pos here, if_pos here, here, found]
            rfl
          · rw [if_neg here, if_neg here]

theorem Represents.push (represents : t.Represents s) : Agrees Table.push t () (.ok s.push) := by
  refine ⟨_, rfl, represents.order, ?_, represents.entries⟩
  rw [Symbols.push, ← represents.size_eq, ← represents.marks]

theorem eraseEach_eq (names : List String) (t : Table) :
    eraseEach names t =
      .ok () { t with entries := fun n => if n ∈ names then none else t.entries n } := by
  induction names generalizing t with
  | nil => simp [eraseEach]; rfl
  | cons name names ih =>
      have erased : put name none t =
          .ok () { t with entries := fun n => if n = name then none else t.entries n } := rfl
      rw [eraseEach, bind_of_ok erased, ih]
      congr 2
      funext n
      by_cases here : n = name <;> by_cases later : n ∈ names <;> simp [here, later]

theorem Represents.pop (represents : t.Represents s) (formed : s.WellFormed) :
    Agrees Table.pop t (s.size - s.pop.size) (.ok s.pop) := by
  obtain ⟨entries, order, marks⟩ := t
  obtain ⟨bindings, marks'⟩ := s
  have names : order = bindings.map Prod.fst := represents.order
  have same : marks' = marks := represents.marks.symm
  subst names same
  cases marks' with
  | nil =>
      refine ⟨_, ?_, represents⟩
      rw [Table.pop, get_bind, Symbols.pop, Nat.sub_self]
      rfl
  | cons mark marks =>
      have within : mark ≤ bindings.length := formed.bounded mark (by simp)
      have cut : mark ≤ (bindings.map Prod.fst).length := by rwa [List.length_map]
      have count : Symbols.size ⟨bindings, mark :: marks⟩ -
          (Symbols.pop ⟨bindings, mark :: marks⟩).size =
            ((bindings.map Prod.fst).drop mark).length := by
        simp [Symbols.pop, Symbols.size, within]
      have popped : Table.pop ⟨entries, bindings.map Prod.fst, mark :: marks⟩ =
          .ok ((bindings.map Prod.fst).drop mark).length
            { entries := fun n =>
                if n ∈ ((bindings.map Prod.fst).drop mark).reverse then none else entries n
              order := (bindings.map Prod.fst).take mark
              marks } := by
        rw [Table.pop, get_bind]
        change truncate mark ⟨entries, _, marks⟩ = _
        rw [truncate, get_bind, if_pos cut]
        exact bind_of_ok (eraseEach_eq _ ⟨entries, (bindings.map Prod.fst).take mark, marks⟩) _
      rw [count]
      refine ⟨_, popped, ?_, rfl, fun n => ?_⟩
      · rw [Symbols.names, Symbols.pop, List.map_take]
      · rw [Symbols.get?, Symbols.pop, Symbols.lookup_take formed.distinct, List.map_drop]
        simp only [List.mem_reverse]
        rw [show entries n = bindings.lookup n from represents.entries n]

theorem size_pop_le (s : Symbols) : s.pop.size ≤ s.size := by
  obtain ⟨bindings, marks⟩ := s
  cases marks with
  | nil => exact Nat.le_refl _
  | cons mark marks => exact List.length_take_le' mark bindings

theorem unwind_of_lt {depth : Nat} (more : depth < s.depth) :
    s.unwind depth = s.pop.unwind depth := by
  have round : s.depth - depth = (s.pop.depth - depth) + 1 := by
    rw [Symbols.depth_pop]
    omega
  rw [Symbols.unwind, round, Symbols.popMany, Symbols.unwind]

theorem unwind_of_le {depth : Nat} (few : s.depth ≤ depth) : s.unwind depth = s := by
  rw [Symbols.unwind, Nat.sub_eq_zero_of_le few, Symbols.popMany]

theorem Represents.unwindLoop (represents : t.Represents s) (formed : s.WellFormed) (depth : Nat)
    {rounds : Nat} (enough : s.depth ≤ rounds) :
    Agrees (Table.unwindLoop depth rounds) t (s.size - (s.unwind depth).size)
      (.ok (s.unwind depth)) ∧
      (s.unwind depth).size ≤ s.size := by
  induction rounds generalizing t s with
  | zero =>
      rw [unwind_of_le (Nat.le_trans enough (Nat.zero_le depth)), Nat.sub_self]
      exact ⟨⟨t, rfl, represents⟩, Nat.le_refl _⟩
  | succ rounds ih =>
      have marks : t.marks.length = s.depth := congrArg List.length represents.marks
      by_cases more : depth < s.depth
      · obtain ⟨t₁, popped, represents₁⟩ := represents.pop formed
        have fewer : s.pop.depth ≤ rounds := by
          rw [Symbols.depth_pop]
          omega
        obtain ⟨⟨t₂, looped, represents₂⟩, le⟩ := ih represents₁ formed.pop fewer
        rw [unwind_of_lt more]
        refine ⟨⟨t₂, ?_, represents₂⟩, Nat.le_trans le (size_pop_le s)⟩
        have total : s.size - s.pop.size + (s.pop.size - (s.pop.unwind depth).size) =
            s.size - (s.pop.unwind depth).size := by
          have := size_pop_le s
          omega
        rw [Table.unwindLoop, get_bind, if_pos (by rwa [marks]), ← total]
        exact (bind_of_ok popped _).trans (bind_of_ok looped _)
      · rw [unwind_of_le (Nat.le_of_not_lt more), Nat.sub_self]
        refine ⟨⟨t, ?_, represents⟩, Nat.le_refl _⟩
        rw [Table.unwindLoop, get_bind, if_neg (by rwa [marks])]
        rfl

theorem Represents.unwind (represents : t.Represents s) (formed : s.WellFormed) (depth : Nat) :
    Agrees (Table.unwind depth) t (s.size - (s.unwind depth).size) (.ok (s.unwind depth)) := by
  have marks : t.marks.length = s.depth := congrArg List.length represents.marks
  rw [Agrees, Table.unwind, get_bind, marks]
  exact (represents.unwindLoop formed depth (Nat.le_refl _)).1

/-!
## Any operations
-/

def run : Symbols.Operation → Change Unit
  | .add name type value origin => add name type value origin
  | .update name value => update name value
  | .push => push
  | .pop => do
      let _ ← pop
      return
  | .unwind depth => do
      let _ ← unwind depth
      return

def perform (t : Table) (op : Symbols.Operation) : Except Fault Table :=
  match run op t with
  | .ok _ t' => .ok t'
  | .error (.refused _) t' => .ok t'
  | .error (.fault fault) _ => .error fault

def performAll (t : Table) (ops : List Symbols.Operation) : Except Fault Table :=
  ops.foldlM perform t

/-- The last value that operations write to a name, the given one if they write none.  Refused
operations write nothing. -/
def lastWritten (name : String) (t : Table) (value : Value) : List Symbols.Operation → Value
  | [] => value
  | op :: ops =>
      match run op t with
      | .ok _ t' => lastWritten name t' ((op.written? name).getD value) ops
      | .error _ t' => lastWritten name t' value ops

theorem Represents.run (represents : t.Represents s) (formed : s.WellFormed)
    (op : Symbols.Operation) : Agrees (run op) t () (op.run s) := by
  cases op with
  | add name type value origin => exact represents.add name type value origin
  | update name value => exact represents.update name value
  | push => exact represents.push
  | pop =>
      obtain ⟨t', popped, represents'⟩ := represents.pop formed
      exact ⟨t', bind_of_ok popped _, represents'⟩
  | unwind depth =>
      obtain ⟨t', closed, represents'⟩ := represents.unwind formed depth
      exact ⟨t', bind_of_ok closed _, represents'⟩

theorem Represents.perform (represents : t.Represents s) (formed : s.WellFormed)
    (op : Symbols.Operation) : ∃ t', t.perform op = .ok t' ∧ t'.Represents (s.perform op) := by
  have ran := represents.run formed op
  rw [Table.perform, Symbols.perform]
  cases result : op.run s with
  | ok s' =>
      rw [result] at ran
      obtain ⟨t', made, represents'⟩ := ran
      rw [made]
      exact ⟨t', rfl, represents'⟩
  | error cause =>
      rw [result] at ran
      rw [show Table.run op t = _ from ran]
      exact ⟨t, rfl, represents⟩

theorem Represents.performAll (represents : t.Represents s) (formed : s.WellFormed)
    (ops : List Symbols.Operation) :
    ∃ t', t.performAll ops = .ok t' ∧ t'.Represents (s.performAll ops) := by
  induction ops generalizing t s with
  | nil => exact ⟨t, rfl, represents⟩
  | cons op ops ih =>
      obtain ⟨t₁, first, represents₁⟩ := represents.perform formed op
      obtain ⟨t₂, later, represents₂⟩ := ih represents₁ (formed.perform op)
      refine ⟨t₂, ?_, represents₂⟩
      rw [Table.performAll, List.foldlM_cons, first]
      exact later

theorem Represents.lastWritten_eq (represents : t.Represents s) (formed : s.WellFormed)
    (ops : List Symbols.Operation) (name : String) (value : Value) :
    lastWritten name t value ops = Symbols.lastWritten name s value ops := by
  induction ops generalizing t s value with
  | nil => rfl
  | cons op ops ih =>
      have ran := represents.run formed op
      rw [lastWritten, Symbols.lastWritten, Symbols.perform]
      cases result : op.run s with
      | ok s' =>
          rw [result] at ran
          obtain ⟨t', made, represents'⟩ := ran
          rw [made]
          exact ih represents' (formed.run result) _
      | error cause =>
          rw [result] at ran
          rw [show Table.run op t = _ from ran]
          exact ih represents formed _

/-- A scope that is opened and closed again, with any operations in between that close neither it
nor a scope around it, leaves the table that was there, with the last values that were written to
it. -/
theorem Represents.scope_restores (represents : t.Represents s) (formed : s.WellFormed)
    (inner : List Symbols.Operation)
    (open_ : ∀ k ≤ inner.length, ∀ u, t.performAll (.push :: inner.take k) = .ok u →
      t.marks.length < u.marks.length)
    (last : ∀ u, t.performAll (.push :: inner) = .ok u → u.marks.length = t.marks.length + 1) :
    ∃ u, t.performAll (.push :: inner ++ [.pop]) = .ok u ∧ u.order = t.order ∧ u.marks = t.marks ∧
      ∀ name, u.entries name = (t.entries name).map fun v =>
        { v with value := lastWritten name t v.value (.push :: inner) } := by
  have depth {u : Table} {s' : Symbols} (same : u.Represents s') : u.marks.length = s'.depth :=
    congrArg List.length same.marks
  have opened (k : Nat) (within : k ≤ inner.length) :
      s.depth < (s.push.performAll (inner.take k)).depth := by
    obtain ⟨u, ran, represents'⟩ := represents.performAll formed (.push :: inner.take k)
    have deeper := open_ k within u ran
    rwa [depth represents, depth represents'] at deeper
  have closing : (s.push.performAll inner).depth = s.depth + 1 := by
    obtain ⟨u, ran, represents'⟩ := represents.performAll formed (.push :: inner)
    have one := last u ran
    rwa [depth represents, depth represents'] at one
  obtain ⟨u, ran, represents'⟩ := represents.performAll formed (.push :: inner ++ [.pop])
  rw [formed.scope_restores inner opened closing] at represents'
  refine ⟨u, ran, ?_, ?_, fun name => ?_⟩
  · rw [represents'.order, represents.order]
    simp [Symbols.names, Symbols.rewrittenAll]
  · rw [represents'.marks, represents.marks]
  · rw [represents'.entries, represents.entries]
    simp only [represents.lastWritten_eq formed]
    exact Symbols.lookup_map
      (fun n v => { v with value := Symbols.lastWritten n s.push v.value inner }) s.bindings name

/-- Operations make of the empty table one whose order lists the bound names, each of them once;
whose marks grow towards the innermost scope and are within the order; and whose values have the
declared types.  On such a table no operation faults, and one that is refused changes nothing.  And
when a scope is opened and closed again, with any operations in between that close neither it nor a
scope around it, the table is back, with the last values that were written to its variables. -/
theorem performed_lawful (ops : List Symbols.Operation) :
    ∃ t, ({} : Table).performAll ops = .ok t ∧
      (t.order.Nodup ∧ ∀ name, t.contains name = true ↔ name ∈ t.order) ∧
      (t.marks.Pairwise (· ≥ ·) ∧ ∀ mark ∈ t.marks, mark ≤ t.order.length) ∧
      (∀ name v, t.entries name = some v → v.value.type = v.type) ∧
      (∀ op, (∃ t', run op t = .ok () t') ∨ ∃ cause, run op t = .error (.refused cause) t) ∧
      ∀ inner : List Symbols.Operation,
        (∀ k ≤ inner.length, ∀ u, t.performAll (.push :: inner.take k) = .ok u →
          t.marks.length < u.marks.length) →
        (∀ u, t.performAll (.push :: inner) = .ok u → u.marks.length = t.marks.length + 1) →
        ∃ u, t.performAll (.push :: inner ++ [.pop]) = .ok u ∧
          u.order = t.order ∧ u.marks = t.marks ∧
          ∀ name, u.entries name = (t.entries name).map fun v =>
            { v with value := lastWritten name t v.value (.push :: inner) } := by
  have empty : ({} : Table).Represents {} := ⟨rfl, rfl, fun _ => rfl⟩
  obtain ⟨t, made, represents⟩ := empty.performAll Symbols.wellFormed_empty ops
  have formed := Symbols.wellFormed_empty.performAll ops
  generalize ({} : Symbols).performAll ops = s at represents formed
  refine ⟨t, made, ⟨?distinct, fun name => ?bound⟩, ⟨?ordered, ?bounded⟩,
    fun name v found => ?typed, fun op => ?refused, represents.scope_restores formed⟩
  case distinct =>
    rw [represents.order]
    exact formed.distinct
  case bound =>
    rw [represents.contains_eq, represents.order]
    exact Symbols.contains_iff
  case ordered =>
    rw [represents.marks]
    exact formed.ordered
  case bounded =>
    rw [represents.marks, represents.size_eq]
    exact formed.bounded
  case typed =>
    rw [represents.entries] at found
    obtain ⟨before, after, split, -⟩ := List.lookup_eq_some_iff.1 found
    exact formed.typed (name, v) (by rw [split]; simp)
  case refused =>
    have ran := represents.run formed op
    cases result : op.run s with
    | ok s' =>
        rw [result] at ran
        obtain ⟨t', made, -⟩ := ran
        exact .inl ⟨t', made⟩
    | error cause =>
        rw [result] at ran
        exact .inr ⟨cause, ran⟩

def nestedOps : List Symbols.Operation :=
  [.add "a" .int (.int 1) .declaration, .push, .add "b" .bool (.bool true) .parameter, .push]

def nestedTable : Table where
  entries := fun n =>
    if n = "b" then some ⟨.bool true, .bool, .parameter⟩
    else if n = "a" then some ⟨.int 1, .int, .declaration⟩ else none
  order := ["a", "b"]
  marks := [2, 1]

def innerOps : List Symbols.Operation :=
  [.update "a" (.int 2), .add "c" .int (.int 3) .declaration, .add "a" .int (.int 4) .declaration,
    .push, .update "b" (.int 5), .update "a" (.int 6), .unwind 3, .update "c" (.int 7)]

theorem performed_lawful_nested :
    ({} : Table).performAll nestedOps = .ok nestedTable ∧
      (∀ k ≤ innerOps.length, ∀ u, nestedTable.performAll (.push :: innerOps.take k) = .ok u →
        nestedTable.marks.length < u.marks.length) ∧
      (∀ u, nestedTable.performAll (.push :: innerOps) = .ok u →
        u.marks.length = nestedTable.marks.length + 1) ∧
      ∃ u, nestedTable.performAll (.push :: innerOps ++ [.pop]) = .ok u ∧
        u.order = ["a", "b"] ∧ u.marks = [2, 1] ∧
        u.entries "a" = some ⟨.int 6, .int, .declaration⟩ ∧
        u.entries "b" = some ⟨.bool true, .bool, .parameter⟩ ∧ u.entries "c" = none := by
  obtain ⟨t, made, -, -, -, -, scope⟩ := performed_lawful nestedOps
  have nested : ({} : Table).performAll nestedOps = .ok nestedTable := rfl
  obtain rfl : t = nestedTable := Except.ok.inj (made.symm.trans nested)
  have open_ : ∀ k ≤ innerOps.length, ∀ u,
      nestedTable.performAll (.push :: innerOps.take k) = .ok u →
        nestedTable.marks.length < u.marks.length := by
    intro k within u inside
    have deeper : ∀ k ≤ innerOps.length,
        (nestedTable.performAll (.push :: innerOps.take k)).toOption.all
          (fun u => decide (nestedTable.marks.length < u.marks.length)) = true := by decide
    have here := deeper k within
    rw [inside] at here
    exact of_decide_eq_true here
  have last : ∀ u, nestedTable.performAll (.push :: innerOps) = .ok u →
      u.marks.length = nestedTable.marks.length + 1 := by
    intro u inside
    have one : (nestedTable.performAll (.push :: innerOps)).toOption.all
        (fun u => decide (u.marks.length = nestedTable.marks.length + 1)) = true := by decide
    rw [inside] at one
    exact of_decide_eq_true one
  obtain ⟨u, ran, order, marks, values⟩ := scope innerOps open_ last
  refine ⟨made, open_, last, u, ran, order, marks, ?_, ?_, ?_⟩
  · rw [values]
    decide
  · rw [values]
    decide
  · rw [values]
    decide

end Table

/-- A table can stand for the variables of a run, and then no operation on it faults. -/
theorem Machine.symbols_carried {source : String} {p : Program}
    (loaded : Program.load source = .ok p) (settings : Settings) {k : Nat} {m : Machine}
    (reached : (Machine.start p settings).machine.after k = .ok m) :
    ∃ t : Table, t.Represents m.symbols ∧
      ∀ ops, ∃ t', t.performAll ops = .ok t' ∧ t'.Represents (m.symbols.performAll ops) := by
  obtain ⟨n, nests⟩ := p.exists_nestsBelow
  have formed := (sane_after loaded settings nests reached).symbols
  have represents : Table.Represents ⟨m.symbols.get?, m.symbols.names, m.symbols.marks⟩ m.symbols :=
    ⟨rfl, rfl, fun _ => rfl⟩
  exact ⟨_, represents, represents.performAll formed⟩

end LineScript

import LineScript.Proofs.Scopes

/-!
# Lists of variables

A list of variables is only ever changed by declaring and updating variables and by opening and
closing scopes.  Whatever the order of these operations, refused ones among them, the list stays
well formed; and what happens between the opening of a scope and its end leaves nothing behind but
the values that were written to older variables.
-/

namespace LineScript.Symbols

inductive Operation where
  | add (name : String) (type : ValueType) (value : Value) (origin : Origin)
  | update (name : String) (value : Value)
  | push
  | pop
  | unwind (depth : Nat)
  deriving DecidableEq, Repr

def Operation.run (s : Symbols) : Operation → Except Cause Symbols
  | .add name type value origin => s.add name type value origin
  | .update name value => s.update name value
  | .push => .ok s.push
  | .pop => .ok s.pop
  | .unwind depth => .ok (s.unwind depth)

def perform (s : Symbols) (op : Operation) : Symbols :=
  match op.run s with
  | .ok s' => s'
  | .error _ => s

def performAll (s : Symbols) : List Operation → Symbols
  | [] => s
  | op :: ops => (s.perform op).performAll ops

def Operation.written? (name : String) : Operation → Option Value
  | .add n _ value _ => if n = name then some value else none
  | .update n value => if n = name then some value else none
  | _ => none

/-- The last value that operations write to a name, the given one if they write none.  Refused
operations write nothing. -/
def lastWritten (name : String) (s : Symbols) (value : Value) : List Operation → Value
  | [] => value
  | op :: ops =>
      let value :=
        match op.run s with
        | .ok _ => (op.written? name).getD value
        | .error _ => value
      lastWritten name (s.perform op) value ops

/-- All names are bound once, values are of the declared types, and no scope begins above the one
that was opened after it or past the last variable. -/
structure WellFormed (s : Symbols) : Prop where
  distinct : s.names.Nodup
  typed : ∀ b ∈ s.bindings, b.2.value.type = b.2.type
  ordered : s.marks.Pairwise (· ≥ ·)
  bounded : ∀ mark ∈ s.marks, mark ≤ s.size

variable {s s' : Symbols} {name : String} {value : Value}

theorem get?_eq_none_iff : s.get? name = none ↔ name ∉ s.names := by
  rw [get?, List.lookup_eq_none_iff, names, List.mem_map]
  constructor
  · rintro other ⟨b, hb, rfl⟩
    have := other b hb
    simp at this
  · intro unbound b hb
    rw [bne_iff_ne]
    rintro rfl
    exact unbound ⟨b, hb, rfl⟩

theorem contains_iff : s.contains name = true ↔ name ∈ s.names := by
  rw [contains, Option.isSome_iff_ne_none, ne_eq, get?_eq_none_iff, Decidable.not_not]

/-!
## Well-formed tables
-/

theorem wellFormed_empty : ({} : Symbols).WellFormed where
  distinct := List.nodup_nil
  typed := by simp
  ordered := List.Pairwise.nil
  bounded := by simp

theorem WellFormed.add (formed : s.WellFormed) {type : ValueType} {origin : Origin}
    (added : s.add name type value origin = .ok s') : s'.WellFormed := by
  unfold Symbols.add at added
  split at added
  · cases added
  · rename_i unbound
    split at added
    · cases added
    · rename_i typed
      cases added
      constructor
      · have fresh : name ∉ s.names := fun member => unbound (contains_iff.2 member)
        rw [names, List.map_append, List.nodup_append]
        refine ⟨formed.distinct, by simp, ?_⟩
        intro n hn n' hn' same
        rw [List.map_singleton, List.mem_singleton] at hn'
        exact fresh (by rwa [same, hn'] at hn)
      · intro b hb
        rcases List.mem_append.1 hb with hb | hb
        · exact formed.typed b hb
        · rw [List.mem_singleton.1 hb]
          exact Decidable.not_not.1 typed
      · exact formed.ordered
      · intro mark hm
        have := formed.bounded mark hm
        simp only [size, List.length_append] at this ⊢
        omega

@[simp] theorem length_setValue (bindings : List (String × Variable)) :
    (setValue name value bindings).length = bindings.length := by
  rw [← List.length_map Prod.fst, map_fst_setValue, List.length_map]

theorem typed_setValue {bindings : List (String × Variable)} {v : Variable}
    (found : bindings.lookup name = some v) (fits : value.type = v.type)
    (typed : ∀ b ∈ bindings, b.2.value.type = b.2.type) :
    ∀ b ∈ setValue name value bindings, b.2.value.type = b.2.type := by
  induction bindings with
  | nil => cases found
  | cons first rest ih =>
      obtain ⟨n, w⟩ := first
      intro b hb
      by_cases same : n = name
      · subst same
        rw [List.lookup_cons_self] at found
        cases found
        rw [setValue, if_pos rfl, List.mem_cons] at hb
        rcases hb with rfl | hb
        · exact fits
        · exact typed b (List.mem_cons_of_mem _ hb)
      · rw [List.lookup_cons, beq_eq_false_iff_ne.2 (Ne.symm same)] at found
        rw [setValue, if_neg same, List.mem_cons] at hb
        rcases hb with rfl | hb
        · exact typed _ (by simp)
        · exact ih found (fun b hb => typed b (List.mem_cons_of_mem _ hb)) b hb

theorem WellFormed.update (formed : s.WellFormed) (updated : s.update name value = .ok s') :
    s'.WellFormed := by
  unfold Symbols.update at updated
  split at updated
  · cases updated
  · rename_i v found
    split at updated
    · cases updated
    · rename_i typed
      cases updated
      constructor
      · rw [names, map_fst_setValue]
        exact formed.distinct
      · exact typed_setValue found (Decidable.not_not.1 typed) formed.typed
      · exact formed.ordered
      · intro mark hm
        rw [size, length_setValue]
        exact formed.bounded mark hm

theorem WellFormed.push (formed : s.WellFormed) : s.push.WellFormed where
  distinct := formed.distinct
  typed := formed.typed
  ordered := List.pairwise_cons.2 ⟨formed.bounded, formed.ordered⟩
  bounded := by
    intro mark hm
    rcases List.mem_cons.1 hm with rfl | hm
    · exact Nat.le_refl _
    · exact formed.bounded mark hm

theorem WellFormed.pop (formed : s.WellFormed) : s.pop.WellFormed := by
  obtain ⟨bindings, marks⟩ := s
  cases marks with
  | nil => exact formed
  | cons mark marks =>
      have kept : (bindings.take mark).Sublist bindings := List.take_sublist _ _
      constructor
      · exact (kept.map Prod.fst).nodup formed.distinct
      · exact fun b hb => formed.typed b (kept.subset hb)
      · exact formed.ordered.of_cons
      · intro k hk
        have low : k ≤ mark := (List.pairwise_cons.1 formed.ordered).1 k hk
        have high : mark ≤ bindings.length := formed.bounded mark (by simp)
        simp only [Symbols.pop, size, List.length_take]
        omega

theorem WellFormed.popMany (formed : s.WellFormed) (n : Nat) : (popMany n s).WellFormed := by
  induction n generalizing s with
  | zero => exact formed
  | succ n ih => exact ih formed.pop

theorem WellFormed.unwind (formed : s.WellFormed) (depth : Nat) : (s.unwind depth).WellFormed :=
  formed.popMany _

theorem WellFormed.run (formed : s.WellFormed) {op : Operation} (ran : op.run s = .ok s') :
    s'.WellFormed := by
  cases op with
  | add name type value origin => exact formed.add ran
  | update name value => exact formed.update ran
  | push =>
      cases ran
      exact formed.push
  | pop =>
      cases ran
      exact formed.pop
  | unwind depth =>
      cases ran
      exact formed.unwind depth

theorem WellFormed.perform (formed : s.WellFormed) (op : Operation) :
    (s.perform op).WellFormed := by
  unfold Symbols.perform
  split
  · rename_i ran
    exact formed.run ran
  · exact formed

theorem WellFormed.performAll (formed : s.WellFormed) (ops : List Operation) :
    (s.performAll ops).WellFormed := by
  induction ops generalizing s with
  | nil => exact formed
  | cons op ops ih => exact ih (formed.perform op)

theorem performAll_append (s : Symbols) (ops more : List Operation) :
    s.performAll (ops ++ more) = (s.performAll ops).performAll more := by
  induction ops generalizing s with
  | nil => rfl
  | cons op ops ih => exact ih (s.perform op)

/-!
## Inside of a scope
-/

/-- The oldest variables of a table lie below a scope, with further scopes under it. -/
structure Rests (low : List (String × Variable)) (marks : List Nat) (s : Symbols) : Prop where
  below : low <+: s.bindings
  above : ∃ newer, s.marks = newer ++ low.length :: marks ∧ ∀ mark ∈ newer, low.length ≤ mark

variable {low : List (String × Variable)} {marks : List Nat}

theorem Rests.push (rests : Rests low marks s) : Rests low marks s.push := by
  obtain ⟨newer, same, le⟩ := rests.above
  refine ⟨rests.below, s.size :: newer, by simp [Symbols.push, same], ?_⟩
  intro mark hm
  rcases List.mem_cons.1 hm with rfl | hm
  · exact rests.below.length_le
  · exact le mark hm

theorem Rests.pop (rests : Rests low marks s) (open_ : marks.length < s.pop.depth) :
    Rests low marks s.pop := by
  obtain ⟨bindings, all⟩ := s
  obtain ⟨newer, same, le⟩ := rests.above
  simp only at same
  subst same
  cases newer with
  | nil => simp [Symbols.pop, depth] at open_
  | cons mark newer =>
      refine ⟨?_, newer, rfl, fun k hk => le k (List.mem_cons_of_mem _ hk)⟩
      exact List.prefix_take_iff.2 ⟨rests.below, le mark (by simp)⟩

theorem Rests.popMany (rests : Rests low marks s) (n : Nat)
    (open_ : marks.length < (popMany n s).depth) : Rests low marks (popMany n s) := by
  induction n generalizing s with
  | zero => exact rests
  | succ n ih =>
      refine ih (rests.pop ?_) open_
      rw [Symbols.popMany, depth_popMany] at open_
      omega

theorem Rests.close (rests : Rests low marks s) (last : s.depth = marks.length + 1) :
    s.pop = { bindings := low, marks } := by
  obtain ⟨bindings, all⟩ := s
  obtain ⟨newer, same, -⟩ := rests.above
  simp only at same
  subst same
  have none : newer = [] := by
    simp only [depth, List.length_append, List.length_cons] at last
    exact List.length_eq_zero_iff.1 (by omega)
  subst none
  simp only [List.nil_append, Symbols.pop, Symbols.mk.injEq, and_true]
  exact (List.prefix_iff_eq_take.1 rests.below).symm

theorem setValue_of_not_mem {bindings : List (String × Variable)}
    (unbound : name ∉ bindings.map Prod.fst) : setValue name value bindings = bindings := by
  induction bindings with
  | nil => rfl
  | cons first rest ih =>
      obtain ⟨n, v⟩ := first
      simp only [List.map_cons, List.mem_cons, not_or] at unbound
      rw [setValue, if_neg (Ne.symm unbound.1), ih unbound.2]

theorem setValue_append (low high : List (String × Variable))
    (distinct : ((low ++ high).map Prod.fst).Nodup) :
    setValue name value (low ++ high) = setValue name value low ++ setValue name value high := by
  induction low with
  | nil => rfl
  | cons first rest ih =>
      obtain ⟨n, v⟩ := first
      simp only [List.cons_append, List.map_cons, List.nodup_cons] at distinct
      by_cases same : n = name
      · subst same
        have later : n ∉ high.map Prod.fst := by
          intro member
          exact distinct.1 (by simp only [List.map_append, List.mem_append]; exact .inr member)
        rw [List.cons_append, setValue, if_pos rfl, setValue, if_pos rfl,
          setValue_of_not_mem later]
        rfl
      · rw [List.cons_append, setValue, if_neg same, setValue, if_neg same, ih distinct.2]
        rfl

theorem setValue_eq_map {bindings : List (String × Variable)}
    (distinct : (bindings.map Prod.fst).Nodup) :
    setValue name value bindings = bindings.map fun b =>
      (b.1, { b.2 with value := ((Operation.update name value).written? b.1).getD b.2.value }) := by
  induction bindings with
  | nil => rfl
  | cons first rest ih =>
      obtain ⟨n, v⟩ := first
      simp only [List.map_cons, List.nodup_cons] at distinct
      by_cases same : n = name
      · subst same
        have others := ih distinct.2
        rw [setValue_of_not_mem distinct.1] at others
        rw [setValue, if_pos rfl, List.map_cons, ← others]
        simp [Operation.written?]
      · rw [setValue, if_neg same, ih distinct.2, List.map_cons]
        simp [Operation.written?, Ne.symm same]

def rewritten (op : Operation) (low : List (String × Variable)) : List (String × Variable) :=
  low.map fun b => (b.1, { b.2 with value := (op.written? b.1).getD b.2.value })

theorem rewritten_eq_self {op : Operation} (silent : ∀ b ∈ low, op.written? b.1 = none) :
    rewritten op low = low := by
  rw [rewritten, List.map_congr_left (g := id)]
  · exact List.map_id low
  · intro b hb
    rw [silent b hb]
    rfl

/-- An operation that is carried out inside of a scope changes no more than values below it. -/
theorem Rests.run (rests : Rests low marks s) (formed : s.WellFormed) {op : Operation}
    (ran : op.run s = .ok s') (open_ : marks.length < s'.depth) :
    Rests (rewritten op low) marks s' := by
  have length : ∀ op, (rewritten op low).length = low.length := fun op => by simp [rewritten]
  cases op with
  | add name type value origin =>
      have grown : s'.marks = s.marks ∧ s.bindings <+: s'.bindings ∧ s.contains name = false := by
        simp only [Operation.run, Symbols.add] at ran
        split at ran
        · cases ran
        · rename_i unbound
          split at ran
          · cases ran
          · cases ran
            exact ⟨rfl, List.prefix_append _ _, by simpa using unbound⟩
      rw [rewritten_eq_self]
      · refine ⟨rests.below.trans grown.2.1, ?_⟩
        rw [grown.1]
        exact rests.above
      · intro b hb
        have bound : s.contains b.1 = true :=
          contains_iff.2 (List.mem_map_of_mem (rests.below.subset hb))
        have other : name ≠ b.1 := by
          rintro rfl
          rw [grown.2.2] at bound
          cases bound
        simp [Operation.written?, other]
  | update name value =>
      have set : s' = { s with bindings := setValue name value s.bindings } := by
        simp only [Operation.run, Symbols.update] at ran
        split at ran
        · cases ran
        · split at ran
          · cases ran
          · cases ran
            rfl
      obtain ⟨high, split⟩ := rests.below
      have distinct := formed.distinct
      rw [names, ← split] at distinct
      have lower : (low.map Prod.fst).Nodup :=
        ((List.sublist_append_left low high).map Prod.fst).nodup distinct
      subst set
      constructor
      · rw [← split, setValue_append low high distinct, setValue_eq_map lower]
        exact List.prefix_append _ _
      · rw [length]
        exact rests.above
  | push =>
      cases ran
      rw [rewritten_eq_self fun _ _ => rfl]
      exact rests.push
  | pop =>
      cases ran
      rw [rewritten_eq_self fun _ _ => rfl]
      exact rests.pop open_
  | unwind depth =>
      cases ran
      rw [rewritten_eq_self fun _ _ => rfl]
      exact rests.popMany _ open_

def rewrittenAll (s : Symbols) (ops : List Operation) (low : List (String × Variable)) :
    List (String × Variable) :=
  low.map fun b => (b.1, { b.2 with value := lastWritten b.1 s b.2.value ops })

theorem Rests.performAll (rests : Rests low marks s) (formed : s.WellFormed) (ops : List Operation)
    (open_ : ∀ k ≤ ops.length, marks.length < (s.performAll (ops.take k)).depth) :
    Rests (rewrittenAll s ops low) marks (s.performAll ops) := by
  induction ops generalizing s low with
  | nil =>
      have same : rewrittenAll s [] low = low := by
        rw [rewrittenAll]
        exact List.map_id low
      rw [same]
      exact rests
  | cons op ops ih =>
      have first : marks.length < (s.perform op).depth := by
        exact open_ 1 (by simp)
      have later : ∀ k ≤ ops.length,
          marks.length < ((s.perform op).performAll (ops.take k)).depth := by
        intro k hk
        exact open_ (k + 1) (by simpa using hk)
      cases ran : op.run s with
      | error cause =>
          have same : s.perform op = s := by simp [perform, ran]
          have values : rewrittenAll s (op :: ops) low = rewrittenAll (s.perform op) ops low := by
            simp only [rewrittenAll, lastWritten, ran]
          rw [values, Symbols.performAll]
          exact ih (by rw [same]; exact rests) (formed.perform op) later
      | ok s' =>
          have next : s.perform op = s' := by simp [perform, ran]
          have values : rewrittenAll s (op :: ops) low =
              rewrittenAll (s.perform op) ops (rewritten op low) := by
            simp only [rewrittenAll, rewritten, List.map_map, lastWritten, ran]
            rfl
          rw [values, Symbols.performAll]
          refine ih ?_ (formed.perform op) later
          rw [next]
          rw [next] at first
          exact rests.run formed ran first

theorem rests_push (s : Symbols) : Rests s.bindings s.marks s.push :=
  ⟨List.prefix_refl _, [], rfl, by simp⟩

theorem WellFormed.scope_restores (formed : s.WellFormed) (inner : List Operation)
    (open_ : ∀ k ≤ inner.length, s.depth < (s.push.performAll (inner.take k)).depth)
    (last : (s.push.performAll inner).depth = s.depth + 1) :
    s.performAll (.push :: inner ++ [.pop]) =
      { s with bindings := rewrittenAll s.push inner s.bindings } := by
  have rests := (rests_push s).performAll formed.push inner open_
  have split : s.performAll (.push :: inner ++ [.pop]) = (s.push.performAll inner).pop := by
    rw [List.cons_append, Symbols.performAll, performAll_append]
    rfl
  rw [split, rests.close last]

end LineScript.Symbols

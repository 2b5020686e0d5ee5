import LineScript.Proofs.Outcome

/-!
# Variables under scopes

Reducing a line adds variables and gives them values; entering and leaving blocks, loops and calls
opens and closes scopes.  `Symbols.Under base s` says that `s` came from `base` by such changes, all
of them above the scopes of `base`; when these changes are undone, the variables of `base` are back
with their names, order, types and origins (`Symbols.Under.unwind_depth`).
-/

namespace LineScript.Symbols

variable {base s s' s'' : Symbols}

/-!
## Closing scopes
-/

theorem unwind_of_le {k : Nat} (le : s.depth ≤ k) : s.unwind k = s := by
  rw [unwind, Nat.sub_eq_zero_of_le le]
  rfl

theorem unwind_of_lt {k : Nat} (lt : k < s.depth) : s.unwind k = s.pop.unwind k := by
  rw [unwind, unwind, depth_pop]
  obtain ⟨d, hd⟩ : ∃ d, s.depth - k = d + 1 := ⟨s.depth - k - 1, by omega⟩
  have hd' : s.depth - 1 - k = d := by omega
  rw [hd, hd']
  rfl

theorem unwind_one {k : Nat} (depth : s.depth = k + 1) : s.unwind k = s.pop := by
  rw [unwind_of_lt (by omega), unwind_of_le (by rw [depth_pop]; omega)]

/-!
## Names and types
-/

def signature (s : Symbols) : List (String × ValueType × Origin) :=
  s.bindings.map fun b => (b.1, b.2.type, b.2.origin)

@[simp] theorem length_signature (s : Symbols) : s.signature.length = s.size := by
  simp [signature, size]

theorem lookup_map {β : Type} (change : String → Variable → β) (bindings : List (String × Variable))
    (x : String) :
    (bindings.map fun b => (b.1, change b.1 b.2)).lookup x = (bindings.lookup x).map
      (change x) := by
  induction bindings with
  | nil => rfl
  | cons b rest ih =>
      obtain ⟨n, v⟩ := b
      rw [List.map_cons, List.lookup_cons, List.lookup_cons]
      cases same : x == n with
      | true =>
          obtain rfl := beq_iff_eq.1 same
          rfl
      | false => exact ih

theorem lookup_signature (s : Symbols) (x : String) :
    s.signature.lookup x = (s.get? x).map fun v => (v.type, v.origin) :=
  lookup_map (fun _ v => (v.type, v.origin)) s.bindings x

theorem contains_eq_false_iff {x : String} :
    s.contains x = false ↔ s.signature.lookup x = none := by
  rw [contains, lookup_signature, Option.isSome_eq_false_iff, Option.isNone_iff_eq_none,
    Option.map_eq_none_iff]

structure Grows (s s' : Symbols) : Prop where
  marks : s'.marks = s.marks
  names : s.signature <+: s'.signature

theorem Grows.refl (s : Symbols) : s.Grows s :=
  ⟨rfl, List.prefix_refl _⟩

theorem Grows.trans (first : s.Grows s') (second : s'.Grows s'') : s.Grows s'' :=
  ⟨second.marks.trans first.marks, first.names.trans second.names⟩

theorem Grows.depth (grows : s.Grows s') : s'.depth = s.depth := by
  rw [Symbols.depth, grows.marks]
  rfl

theorem signature_add {x : String} {t : ValueType} {v : Value} {o : Origin}
    (added : s.add x t v o = .ok s') :
    s.contains x = false ∧ s'.marks = s.marks ∧ s'.signature = s.signature ++ [(x, t, o)] := by
  unfold add at added
  split at added
  · cases added
  · rename_i free
    split at added
    · cases added
    · cases added
      exact ⟨Bool.eq_false_iff.2 free, rfl, by simp [signature]⟩

theorem grows_add {x : String} {t : ValueType} {v : Value} {o : Origin}
    (added : s.add x t v o = .ok s') : s.Grows s' := by
  obtain ⟨-, marks, declared⟩ := signature_add added
  exact ⟨marks, by rw [declared]; exact List.prefix_append _ _⟩

theorem lookup_add {x : String} {t : ValueType} {v : Value} {o : Origin}
    (added : s.add x t v o = .ok s') : s'.signature.lookup x = some (t, o) := by
  obtain ⟨free, -, declared⟩ := signature_add added
  rw [declared, List.lookup_append, contains_eq_false_iff.1 free]
  simp

theorem Grows.free (grows : s.Grows s') {x : String} (later : s'.contains x = false) :
    s.contains x = false := by
  rw [contains_eq_false_iff] at later ⊢
  exact grows.names.lookup_eq_none later

theorem map_setValue (x : String) (v : Value) (bindings : List (String × Variable)) :
    (setValue x v bindings).map (fun b => (b.1, b.2.type, b.2.origin)) =
      bindings.map fun b => (b.1, b.2.type, b.2.origin) := by
  induction bindings with
  | nil => rfl
  | cons b rest ih =>
      obtain ⟨n, w⟩ := b
      by_cases same : n = x <;> simp [setValue, same, ih]

theorem grows_update {x : String} {v : Value} (updated : s.update x v = .ok s') : s.Grows s' := by
  unfold update at updated
  split at updated
  · cases updated
  · split at updated
    · cases updated
    · cases updated
      refine ⟨rfl, ?_⟩
      simp only [signature, map_setValue]
      exact List.prefix_refl _

/-!
## Changes above some scopes
-/

/-- Variables were added to `base` and scopes were opened in it. -/
structure Extends (base s : Symbols) : Prop where
  marks : ∃ newer, s.marks = newer ++ base.marks ∧ ∀ k ∈ newer, base.size ≤ k
  names : base.signature <+: s.signature

theorem Extends.refl (s : Symbols) : s.Extends s :=
  ⟨⟨[], rfl, by simp⟩, List.prefix_refl _⟩

theorem Extends.size_le (extends_ : base.Extends s) : base.size ≤ s.size := by
  have := extends_.names.length_le
  simpa using this

theorem Extends.grows (extends_ : base.Extends s) (grows : s.Grows s') : base.Extends s' :=
  ⟨by rw [grows.marks]; exact extends_.marks, extends_.names.trans grows.names⟩

theorem Extends.push (extends_ : base.Extends s) : base.Extends s.push := by
  obtain ⟨newer, marks, above⟩ := extends_.marks
  refine ⟨⟨s.size :: newer, ?_, ?_⟩, extends_.names⟩
  · rw [Symbols.push, marks]
    rfl
  · intro k hk
    rcases List.mem_cons.1 hk with rfl | hk
    · exact extends_.size_le
    · exact above k hk

theorem signature_take (s : Symbols) (marks : List Nat) (k : Nat) :
    signature { bindings := s.bindings.take k, marks } = s.signature.take k := by
  simp [signature, List.map_take]

theorem Extends.pop (extends_ : base.Extends s) (above : base.depth < s.depth) :
    base.Extends s.pop := by
  obtain ⟨newer, marks, le⟩ := extends_.marks
  cases newer with
  | nil =>
      rw [Symbols.depth, Symbols.depth, marks] at above
      simp at above
  | cons mark newer =>
      have popped : s.pop = { bindings := s.bindings.take mark, marks := newer ++ base.marks } := by
        simp [Symbols.pop, marks]
      rw [popped]
      refine ⟨⟨newer, rfl, fun k hk => le k (List.mem_cons_of_mem _ hk)⟩, ?_⟩
      rw [signature_take, List.prefix_take_iff]
      exact ⟨extends_.names, by rw [length_signature]; exact le mark (by simp)⟩

theorem Extends.popMany (extends_ : base.Extends s) {n : Nat} (above : base.depth ≤ s.depth - n) :
    base.Extends (popMany n s) := by
  induction n generalizing s with
  | zero => exact extends_
  | succ n ih =>
      have rest : base.depth ≤ s.pop.depth - n := by
        rw [depth_pop]
        omega
      -- A scope that is closed is one of the newer ones, or there is none to close.
      rcases Nat.lt_or_ge base.depth s.depth with more | none
      · exact ih (extends_.pop more) rest
      · have empty : s.marks = [] := List.length_eq_zero_iff.1 (show s.depth = 0 by omega)
        have same : s.pop = s := by rw [Symbols.pop, empty]
        exact ih (by rwa [same]) rest

/-- All of `base` lies below a scope that was opened after it. -/
structure Under (base s : Symbols) : Prop where
  marks : ∃ newer, s.marks = newer ++ base.size :: base.marks ∧ ∀ k ∈ newer, base.size ≤ k
  names : base.signature <+: s.signature

theorem under_iff : base.Under s ↔ base.push.Extends s :=
  ⟨fun under => ⟨under.marks, under.names⟩, fun extends_ => ⟨extends_.marks, extends_.names⟩⟩

theorem under_push (base : Symbols) : base.Under base.push :=
  under_iff.2 (.refl _)

theorem Under.grows (under : base.Under s) (grows : s.Grows s') : base.Under s' :=
  under_iff.2 ((under_iff.1 under).grows grows)

theorem Under.push (under : base.Under s) : base.Under s.push :=
  under_iff.2 (under_iff.1 under).push

theorem Under.pop (under : base.Under s) (above : base.depth + 1 < s.depth) : base.Under s.pop :=
  under_iff.2 ((under_iff.1 under).pop above)

theorem Under.depth_lt (under : base.Under s) : base.depth < s.depth := by
  obtain ⟨newer, marks, -⟩ := under.marks
  rw [Symbols.depth, Symbols.depth, marks]
  simp
  omega

theorem Under.unwind (under : base.Under s) {n : Nat} (above : base.depth < n) :
    base.Under (s.unwind n) := by
  have open_ := under.depth_lt
  refine under_iff.2 ((under_iff.1 under).popMany ?_)
  rw [depth_push]
  omega

theorem Under.unwind_depth (under : base.Under s) :
    (s.unwind base.depth).marks = base.marks ∧
      (s.unwind base.depth).signature = base.signature := by
  induction size : s.depth - base.depth generalizing s with
  | zero =>
      have := under.depth_lt
      omega
  | succ d ih =>
      rw [unwind_of_lt (by omega)]
      rcases Nat.eq_or_lt_of_le under.depth_lt with last | more
      · obtain ⟨newer, marks, -⟩ := under.marks
        have none : newer = [] := by
          rw [Symbols.depth, Symbols.depth, marks] at last
          simpa using last
        rw [unwind_of_le (by rw [depth_pop]; omega)]
        rw [none, List.nil_append] at marks
        have popped : s.pop = { bindings := s.bindings.take base.size, marks := base.marks } := by
          simp [Symbols.pop, marks]
        rw [popped]
        refine ⟨rfl, ?_⟩
        rw [signature_take, ← length_signature]
        exact (List.prefix_iff_eq_take.1 under.names).symm
      · exact ih (under.pop more) (by rw [depth_pop]; omega)

def Keeps (n : Nat) (s s' : Symbols) : Prop :=
  ∀ base : Symbols, base.depth < n → base.Under s → base.Under s'

theorem Keeps.trans {n : Nat} (first : Keeps n s s') (second : Keeps n s' s'') : Keeps n s s'' :=
  fun base low under => second base low (first base low under)

theorem Grows.keeps (grows : s.Grows s') (n : Nat) : Keeps n s s' :=
  fun _ _ under => under.grows grows

theorem keeps_push (n : Nat) (s : Symbols) : Keeps n s s.push :=
  fun _ _ under => under.push

theorem keeps_pop {n : Nat} (le : n < s.depth) : Keeps n s s.pop :=
  fun _ low under => under.pop (by omega)

theorem keeps_unwind {n k : Nat} (le : n ≤ k) (s : Symbols) : Keeps n s (s.unwind k) :=
  fun _ low under => under.unwind (by omega)

end LineScript.Symbols

import LineScript.Machine.Step

/-!
# References to functions

A reference is a value that names a function.  Operators and built-in functions make none, so a
value is a copy of another one or no reference at all.  A machine is grounded if every reference
that it could read names a function of its table.
-/

namespace LineScript

/-!
## What makes no reference
-/

namespace Operator

def Plain (x : Except Cause Value) : Prop :=
  ∀ v, x = .ok v → v.type ≠ .function

variable {α : Type}

theorem plain_ok {v : Value} (other : v.type ≠ .function) : Plain (.ok v) := by
  rintro _ ⟨⟩
  exact other

theorem plain_error (cause : Cause) : Plain (.error cause) :=
  nofun

theorem plain_map (x : Except Cause α) {f : α → Value} (other : ∀ a, (f a).type ≠ .function) :
    Plain (x.map f) := by
  cases x with
  | error cause => exact plain_error cause
  | ok a => exact plain_ok (other a)

theorem plain_bind (x : Except Cause α) {f : α → Except Cause Value} (rest : ∀ a, Plain (f a)) :
    Plain (x >>= f) := by
  cases x with
  | error cause => exact plain_error cause
  | ok a => exact rest a

theorem plain_arithmetic (op : Operator) (a b : Value) : Plain (op.arithmetic a b) := by
  unfold arithmetic
  split
  · exact plain_ok nofun
  · split
    · exact plain_map _ nofun
    · split
      · refine plain_bind _ fun x => plain_bind _ fun y => plain_bind _ fun z => ?_
        exact plain_ok nofun
      · exact plain_error _

theorem plain_power (a b : Value) : Plain (power a b) := by
  have floats : Plain (do
      let x ← a.asFloat
      let y ← b.asFloat
      return .float (x.pow y)) :=
    plain_bind _ fun x => plain_bind _ fun y => plain_ok nofun
  unfold power
  simp only
  split
  · split
    · exact floats
    · refine plain_bind _ fun n => ?_
      split
      · exact plain_ok nofun
      · exact plain_error _
  · split
    · exact floats
    · exact plain_error _

theorem plain_comparison (op : Operator) (a b : Value) : Plain (op.comparison a b) := by
  unfold comparison
  split
  · exact plain_map _ nofun
  · exact plain_map _ nofun
  · split
    · exact plain_error _
    · split
      · exact plain_ok nofun
      · exact plain_error _

theorem plain_logic (op : Operator) (a b : Value) : Plain (op.logic a b) := by
  unfold logic
  split
  · refine plain_bind _ fun x => ?_
    split
    · exact plain_bind _ fun y => plain_ok nofun
    · exact plain_ok nofun
  · refine plain_bind _ fun x => ?_
    split
    · exact plain_ok nofun
    · exact plain_bind _ fun y => plain_ok nofun
  · exact plain_error _

theorem plain_applyBetween (op : Operator) (a b : Value) : Plain (op.applyBetween a b) := by
  unfold applyBetween
  split
  any_goals exact plain_arithmetic _ a b
  any_goals exact plain_comparison _ a b
  any_goals exact plain_logic _ a b
  · exact plain_power a b
  · exact plain_error _

theorem plain_applyBefore (op : Operator) (a : Value) : Plain (op.applyBefore a) := by
  unfold applyBefore
  split
  · unfold negation
    split
    · split
      · exact plain_ok nofun
      · exact plain_error _
    · exact plain_ok nofun
    · exact plain_error _
  · exact plain_bind _ fun x => plain_ok nofun
  · exact plain_error _

end Operator

/-- None of the built-in functions makes a reference. -/
theorem Builtin.plain_run {name : String} {properties : List (String × String)} {args : List Value}
    {sink : Sink} {v : Value} (made : (Builtin.run name properties args sink).2 = .ok (some v)) :
    v.type ≠ .function := by
  have print {ending : String} (made : (printTo sink args ending).2 = .ok (some v)) : False := by
    unfold printTo at made
    split at made
    · cases made
    · split at made <;> cases made
  have some_ {x : Except Cause Value} (plain : Operator.Plain x)
    (made : x.map some = .ok (some v)) :
      v.type ≠ .function := by
    cases x with
    | error cause => cases made
    | ok w =>
        cases made
        exact plain v rfl
  unfold run at made
  split at made
  · cases made
  · exact absurd made print
  · exact absurd made print
  · rename_i n _ _ _
    split at made
    · rename_i w
      cases n with
      | print => cases made
      | println => cases made
      | length =>
          refine some_ ?_ made
          unfold lengthOfValue
          split
          · exact Operator.plain_map _ nofun
          · exact Operator.plain_error _
      | text =>
          cases made
          nofun
      | int =>
          refine some_ ?_ made
          unfold toInt
          split
          · exact Operator.plain_ok nofun
          · exact Operator.plain_map _ nofun
          · exact Operator.plain_ok nofun
          · split
            · exact Operator.plain_ok nofun
            · exact Operator.plain_error _
          · exact Operator.plain_error _
      | float =>
          refine some_ ?_ made
          unfold toFloat
          split
          · exact Operator.plain_map _ nofun
          · exact Operator.plain_ok nofun
          · split
            · exact Operator.plain_ok nofun
            · exact Operator.plain_error _
          · exact Operator.plain_error _
      | type =>
          cases made
          nofun
      | property =>
          refine some_ ?_ made
          unfold propertyValue
          split
          · refine Operator.plain_ok ?_
            split <;> nofun
          · exact Operator.plain_error _
    · cases made

/-!
## Known references
-/

namespace Functions

variable {fs gs hs : Functions} {v : Value} {k : TokenKind} {cells : List Cell} {f : Focus}

def Within (fs gs : Functions) : Prop :=
  ∀ name f, fs.get? name = some f → gs.get? name = some f

theorem Within.refl (fs : Functions) : fs.Within fs :=
  fun _ _ found => found

theorem Within.trans (first : fs.Within gs) (second : gs.Within hs) : fs.Within hs :=
  fun name f found => second name f (first name f found)

theorem Within.contains (within : fs.Within gs) {name : String} (known : fs.contains name = true) :
    gs.contains name = true := by
  obtain ⟨f, found⟩ := Option.isSome_iff_exists.1 known
  exact Option.isSome_iff_exists.2 ⟨f, within name f found⟩

theorem within_register {f : Function} (registered : fs.register f = .ok gs) : fs.Within gs := by
  unfold register at registered
  split at registered
  · cases registered
  · cases registered
    intro name g found
    rw [get?, List.find?_append]
    exact Option.or_eq_some_iff.2 (.inl found)

def Knows (fs : Functions) : Value → Prop
  | .function name => fs.contains name = true
  | _ => True

theorem knows_of_type (fs : Functions) (other : v.type ≠ .function) : fs.Knows v := by
  cases v with
  | function name => exact absurd rfl other
  | _ => trivial

theorem knows_null (fs : Functions) : fs.Knows .null :=
  trivial

theorem Knows.mono (knows : fs.Knows v) (within : fs.Within gs) : gs.Knows v := by
  cases v with
  | function name => exact within.contains knows
  | _ => trivial

/-- A token holds no unknown reference, and no variable gets an empty one from it by default. -/
def Admits (fs : Functions) : TokenKind → Prop
  | .literal v => fs.Knows v
  | .type type => type ≠ .function
  | _ => True

theorem Admits.mono (admits : fs.Admits k) (within : fs.Within gs) : gs.Admits k := by
  cases k with
  | literal v => exact Knows.mono admits within
  | type type => exact admits
  | _ => trivial

def Covers (fs : Functions) (cells : List Cell) : Prop :=
  ∀ c ∈ cells, fs.Admits c.token.kind

theorem Covers.mono (covers : fs.Covers cells) (within : fs.Within gs) : gs.Covers cells :=
  fun c hc => (covers c hc).mono within

theorem Covers.subset {cells' : List Cell} (covers : fs.Covers cells) (sub : cells' ⊆ cells) :
    fs.Covers cells' :=
  fun c hc => covers c (sub hc)

theorem covers_nil : fs.Covers [] :=
  nofun

theorem covers_append {left right : List Cell} :
    fs.Covers (left ++ right) ↔ fs.Covers left ∧ fs.Covers right :=
  List.forall_mem_append

theorem covers_cons {c : Cell} :
    fs.Covers (c :: cells) ↔ fs.Admits c.token.kind ∧ fs.Covers cells :=
  List.forall_mem_cons

theorem covers_reverse : fs.Covers cells.reverse ↔ fs.Covers cells := by
  simp [Covers]

theorem Covers.before (seen : fs.Covers f.cells) : fs.Covers f.before :=
  covers_reverse.1 (covers_append.1 seen).1

theorem Covers.cell (seen : fs.Covers f.cells) : fs.Admits f.cell.token.kind :=
  (covers_cons.1 (covers_append.1 seen).2).1

theorem Covers.after (seen : fs.Covers f.cells) : fs.Covers f.after :=
  (covers_cons.1 (covers_append.1 seen).2).2

theorem Covers.around (seen : fs.Covers f.cells) : fs.Covers (f.before.reverse ++ f.after) :=
  covers_append.2 ⟨covers_reverse.2 seen.before, seen.after⟩

end Functions

namespace Symbols

variable {s s' : Symbols} {fs : Functions} {name : String} {value : Value}

def Grounded (s : Symbols) (fs : Functions) : Prop :=
  ∀ b ∈ s.bindings, fs.Knows b.2.value

theorem Grounded.get? (grounded : s.Grounded fs) {v : Variable} (found : s.get? name = some v) :
    fs.Knows v.value := by
  obtain ⟨before, after, split, -⟩ := List.lookup_eq_some_iff.1 found
  exact grounded (name, v) (by rw [split]; simp)

theorem Grounded.add (grounded : s.Grounded fs) (knows : fs.Knows value) {type : ValueType}
    {origin : Origin} (added : s.add name type value origin = .ok s') : s'.Grounded fs := by
  unfold Symbols.add at added
  split at added
  · cases added
  · split at added
    · cases added
    · cases added
      intro b member
      rcases List.mem_append.1 member with old | new
      · exact grounded b old
      · rw [List.mem_singleton.1 new]
        exact knows

theorem mem_setValue {bindings : List (String × Variable)} {b : String × Variable}
    (member : b ∈ setValue name value bindings) : b ∈ bindings ∨ b.2.value = value := by
  induction bindings with
  | nil => cases member
  | cons first rest ih =>
      obtain ⟨n, v⟩ := first
      by_cases here : n = name
      · simp only [setValue, here, if_true, List.mem_cons] at member
        rcases member with rfl | later
        · exact .inr rfl
        · exact .inl (List.mem_cons_of_mem _ later)
      · simp only [setValue, here, if_false, List.mem_cons] at member
        rcases member with rfl | later
        · exact .inl List.mem_cons_self
        · exact (ih later).imp_left (List.mem_cons_of_mem _)

theorem Grounded.update (grounded : s.Grounded fs) (knows : fs.Knows value)
    (updated : s.update name value = .ok s') : s'.Grounded fs := by
  unfold Symbols.update at updated
  split at updated
  · cases updated
  · split at updated
    · cases updated
    · cases updated
      intro b member
      rcases mem_setValue member with old | new
      · exact grounded b old
      · exact new ▸ knows

theorem Grounded.pop (grounded : s.Grounded fs) : s.pop.Grounded fs := by
  unfold Symbols.pop
  split
  · exact grounded
  · exact fun b member => grounded b (List.mem_of_mem_take member)

theorem Grounded.popMany (grounded : s.Grounded fs) (n : Nat) : (popMany n s).Grounded fs := by
  induction n generalizing s with
  | zero => exact grounded
  | succ n ih => exact ih grounded.pop

theorem Grounded.unwind (grounded : s.Grounded fs) (depth : Nat) : (s.unwind depth).Grounded fs :=
  grounded.popMany _

end Symbols

structure Machine.Grounded (m : Machine) : Prop where
  program : ∀ line ∈ m.program.lines, m.functions.Covers line.cells
  symbols : m.symbols.Grounded m.functions
  work : m.functions.Covers m.work.line.cells
  saved : ∀ call ∈ m.calls, m.functions.Covers call.saved.line.cells

structure Functions.Underlie (fs : Functions) (m : Machine) : Prop where
  grounded : m.Grounded
  within : fs.Within m.functions

namespace Machine

variable {m : Machine} {t : Token} {v : Value}

theorem Grounded.valueOf (grounded : m.Grounded) (admits : m.functions.Admits t.kind)
    (found : m.valueOf t = .ok v) : m.functions.Knows v := by
  unfold Machine.valueOf at found
  split at found
  · rename_i w kind
    cases found
    rw [kind] at admits
    exact admits
  · rename_i name _
    unfold valueOfName at found
    split at found
    · rename_i bound
      cases found
      exact grounded.symbols.get? bound
    · split at found
      · rename_i known
        cases found
        exact known
      · cases found
  · cases found

theorem Grounded.withWork (grounded : m.Grounded) {work : Work}
    (covers : m.functions.Covers work.line.cells) : ({ m with work } : Machine).Grounded :=
  ⟨grounded.program, grounded.symbols, covers, grounded.saved⟩

end Machine

end LineScript

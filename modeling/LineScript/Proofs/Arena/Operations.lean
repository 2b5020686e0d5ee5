import LineScript.Proofs.Arena.Links

/-!
# Operations on an arena

What each operation makes of the cells that an arena represents.  Those on one token follow from the
two writes of a splice; the loops are followed along the list of the cells that they pass.
-/

namespace LineScript.Arena

variable {α β : Type} {a a' : Arena} {r : Ref} {c : Cell} {cells cells' before after : List Cell}
  {p q : Option Ref} {t : Token} {n n' : Nat}

def Leaves (x : Change α) (a : Arena) (v : α) (cells : List Cell) (n : Nat) : Prop :=
  ∃ a', x a = .ok v a' ∧ a'.Represents cells ∧ a'.slots.size = n

theorem Leaves.bind {x : Change α} {f : α → Change β} {v : α} {w : β} (first : Leaves x a v cells n)
    (rest : ∀ a', a'.Represents cells → a'.slots.size = n → Leaves (f v) a' w cells' n') :
    Leaves (x >>= f) a w cells' n' := by
  obtain ⟨a', ran, represents, size⟩ := first
  obtain ⟨a'', ran', ends⟩ := rest a' represents size
  exact ⟨a'', (bind_of_ok ran f).trans ran', ends⟩

theorem Leaves.of_bind_ok {x : Change α} {f : α → Change β} {v : α} {w : β} (ran : x a = .ok v a)
    (rest : Leaves (f v) a w cells n) : Leaves (x >>= f) a w cells n := by
  obtain ⟨a', ran', ends⟩ := rest
  exact ⟨a', (bind_of_ok ran f).trans ran', ends⟩

theorem Leaves.pure (represents : a.Represents cells) (v : α) :
    Leaves (pure v) a v cells a.slots.size :=
  ⟨a, rfl, represents, rfl⟩

/-!
## Adding a token
-/

structure Pending (a : Arena) (before : List Cell) (q p : Option Ref) (c : Cell)
    (after : List Cell) : Prop where
  halves : a.Halves before q p after
  here : a.slot? c.ref =
    some { token := c.token, prev := lastOf none before, next := firstOf after none }
  new : c.ref ∉ (before ++ after).map Cell.ref
  occupied : ∀ r, a.contains r = true → r = c.ref ∨ r ∈ (before ++ after).map Cell.ref

theorem Pending.setNext (pending : a.Pending before q p c after) :
    ∃ a', Arena.setNext (lastOf none before) (some c.ref) a = .ok () a' ∧
      a'.Pending before (some c.ref) p c after ∧ a'.slots.size = a.slots.size := by
  obtain ⟨a', ran, halves, frame⟩ := pending.halves.setNext (some c.ref)
  refine ⟨a', ran, ⟨halves, ?_, pending.new, ?_⟩, frame.size⟩
  · rw [frame.outside _ fun old => pending.new (by simp_all), pending.here]
  · intro r used
    exact pending.occupied r (frame.contains r ▸ used)

theorem Pending.setPrev (pending : a.Pending before q p c after) :
    ∃ a', Arena.setPrev (firstOf after none) (some c.ref) a = .ok () a' ∧
      a'.Pending before q (some c.ref) c after ∧ a'.slots.size = a.slots.size := by
  obtain ⟨a', ran, halves, frame⟩ := pending.halves.setPrev (some c.ref)
  refine ⟨a', ran, ⟨halves, ?_, pending.new, ?_⟩, frame.size⟩
  · rw [frame.outside _ fun old => pending.new (by simp_all), pending.here]
  · intro r used
    exact pending.occupied r (frame.contains r ▸ used)

theorem Pending.represents (pending : a.Pending before (some c.ref) (some c.ref) c after) :
    a.Represents (before ++ c :: after) :=
  pending.halves.join pending.here pending.new pending.occupied

def withNew (a : Arena) (node : Node) : Arena :=
  { a with slots := a.slots.push (some node) }

theorem slot?_withNew (a : Arena) (node : Node) (r : Ref) :
    (a.withNew node).slot? r = if r = a.slots.size then some node else a.slot? r := by
  rw [slot?, withNew, Array.getElem?_push]
  split <;> rfl

theorem alloc_eq (room : a.slots.size < UInt32.size) (t : Token) (p q : Option Ref) :
    Arena.alloc t p q a = .ok a.slots.size (a.withNew { token := t, prev := p, next := q }) := by
  rw [Arena.alloc, get_bind, if_pos room]
  rfl

theorem Represents.alloc (represents : a.Represents (before ++ after))
    (room : a.slots.size < UInt32.size) (t : Token) :
    ∃ a', Arena.alloc t (lastOf none before) (firstOf after none) a = .ok a.slots.size a' ∧
      a'.Pending before (firstOf after none) (lastOf none before)
        { ref := a.slots.size, token := t } after ∧
      a'.slots.size = a.slots.size + 1 := by
  have old : ∀ r ∈ (before ++ after).map Cell.ref, ¬ r = a.slots.size :=
    fun r hr => Nat.ne_of_lt (represents.lt_size hr)
  have slot := a.slot?_withNew
    { token := t, prev := lastOf none before, next := firstOf after none }
  refine ⟨_, alloc_eq room t _ _, ⟨?_, ?_, ?_, ?_⟩, Array.size_push _⟩
  · refine represents.halves.congr rfl rfl fun r hr => ?_
    rw [slot, if_neg (old r hr)]
  · rw [slot, if_pos rfl]
  · exact fun member => old _ member rfl
  · intro r used
    by_cases new : r = a.slots.size
    · exact .inl new
    · rw [Arena.contains, slot, if_neg new] at used
      exact .inr (represents.occupied r used)

theorem Represents.append (represents : a.Represents cells) (room : a.slots.size < UInt32.size)
    (t : Token) :
    Leaves (Arena.append t) a a.slots.size (cells ++ [{ ref := a.slots.size, token := t }])
      (a.slots.size + 1) := by
  have whole : a.Represents (cells ++ []) := by rwa [List.append_nil]
  obtain ⟨a₁, allocated, pending, size⟩ := whole.alloc room t
  obtain ⟨a₂, linked, pending, size'⟩ := pending.setNext
  obtain ⟨a₃, linked', pending, size''⟩ := pending.setPrev
  refine ⟨a₃, ?_, pending.represents, by omega⟩
  rw [Arena.append, get_bind, represents.tail]
  exact (bind_of_ok allocated _).trans ((bind_of_ok linked _).trans (bind_of_ok linked' _))

theorem Represents.insertBefore (represents : a.Represents (before ++ c :: after))
    (room : a.slots.size < UInt32.size) (t : Token) :
    Leaves (Arena.insertBefore c.ref t) a a.slots.size
      (before ++ { ref := a.slots.size, token := t } :: c :: after) (a.slots.size + 1) := by
  obtain ⟨a₁, allocated, pending, size⟩ := represents.alloc room t
  obtain ⟨a₂, linked, pending, size'⟩ := pending.setPrev
  obtain ⟨a₃, linked', pending, size''⟩ := pending.setNext
  refine ⟨a₃, (bind_of_ok represents.node _).trans ?_, pending.represents, by omega⟩
  exact (bind_of_ok allocated _).trans ((bind_of_ok linked _).trans (bind_of_ok linked' _))

theorem Represents.insertAfter (represents : a.Represents (before ++ c :: after))
    (room : a.slots.size < UInt32.size) (t : Token) :
    Leaves (Arena.insertAfter c.ref t) a a.slots.size
      (before ++ c :: { ref := a.slots.size, token := t } :: after) (a.slots.size + 1) := by
  have whole : a.Represents ((before ++ [c]) ++ after) := by simpa using represents
  obtain ⟨a₁, allocated, pending, size⟩ := whole.alloc room t
  obtain ⟨a₂, linked, pending, size'⟩ := pending.setNext
  obtain ⟨a₃, linked', pending, size''⟩ := pending.setPrev
  rw [lastOf_append, lastOf_cons, lastOf_nil] at allocated linked
  refine ⟨a₃, (bind_of_ok represents.node _).trans ?_, by simpa using pending.represents, by omega⟩
  exact (bind_of_ok allocated _).trans ((bind_of_ok linked _).trans (bind_of_ok linked' _))

/-!
## Removing a token
-/

theorem Represents.unlink (represents : a.Represents (before ++ c :: after)) :
    Leaves (Arena.unlink c.ref) a
      { token := c.token, prev := lastOf none before, next := firstOf after none } (before ++ after)
      a.slots.size := by
  have halves := represents.halves
  have slot := slot?_withSlot (Arena.lt_size represents.slot) none
  have other := represents.slot?_beside none
  have apart : (a.withSlot c.ref none).Halves before (some c.ref) (some c.ref) after :=
    { head := halves.head
      tail := halves.tail
      left := halves.left.congr fun r hr => other r (by simp_all)
      right := halves.right.2.congr fun r hr => other r (by simp_all)
      distinct := represents.distinct.sublist (List.Sublist.map _ (by simp)) }
  obtain ⟨a₂, linked, halves, frame⟩ := apart.setNext (firstOf after none)
  obtain ⟨a₃, linked', halves, frame'⟩ := halves.setPrev (lastOf none before)
  refine ⟨a₃, ?_, halves.represents ?_, ?_⟩
  · rw [Arena.unlink, bind_of_ok represents.node, bind_of_ok (put_eq _ _ _), bind_of_ok linked]
    exact bind_of_ok linked' _
  · intro r used
    rw [frame'.contains, frame.contains, Arena.contains, slot] at used
    by_cases same : r = c.ref
    · simp [same] at used
    · rw [if_neg same] at used
      have old := represents.occupied r used
      simp only [List.map_append, List.map_cons, List.mem_append, List.mem_cons] at old ⊢
      tauto
  · rw [frame'.size, frame.size, size_withSlot]

theorem Represents.remove (represents : a.Represents (before ++ c :: after)) :
    Leaves (Arena.remove c.ref) a c.token (before ++ after) a.slots.size :=
  represents.unlink.bind fun _ represents' size => size ▸ .pure represents' _

/-!
## Changing a token
-/

theorem Represents.withToken (represents : a.Represents (before ++ c :: after)) (t : Token) :
    (a.withSlot c.ref
      (some { token := t, prev := lastOf none before, next := firstOf after none })).Represents
        (before ++ { c with token := t } :: after) := by
  have linked := linked_append.1 represents.linked
  have slot := slot?_withSlot (Arena.lt_size represents.slot)
    (some { token := t, prev := lastOf none before, next := firstOf after none })
  have other := represents.slot?_beside
    (some { token := t, prev := lastOf none before, next := firstOf after none })
  refine ⟨?_, ?_, linked_append.2 ⟨?_, ?_, ?_⟩, ?_, ?_⟩
  · have head := represents.head
    rw [firstOf_append] at head ⊢
    exact head
  · have tail := represents.tail
    rw [lastOf_append] at tail ⊢
    exact tail
  · exact linked.1.congr fun r hr => other r (by simp_all)
  · rw [slot, if_pos rfl]
  · exact linked.2.2.congr fun r hr => other r (by simp_all)
  · simpa using represents.distinct
  · intro r used
    rw [Arena.contains, slot] at used
    by_cases same : r = c.ref
    · simp [same]
    · rw [if_neg same] at used
      simpa using represents.occupied r used

theorem Represents.setToken (represents : a.Represents (before ++ c :: after))
    {edit : Token → Except Fault Token} (changed : edit c.token = .ok t) :
    Leaves (Arena.setToken c.ref edit) a c.token (before ++ { c with token := t } :: after)
      a.slots.size := by
  refine ⟨_, (bind_of_ok represents.node _).trans ?_, represents.withToken t, size_withSlot ..⟩
  simp only [changed]
  rfl

theorem Represents.replace (represents : a.Represents (before ++ c :: after)) (t : Token) :
    Leaves (Arena.replace c.ref t) a c.token (before ++ { c with token := t } :: after)
      a.slots.size :=
  represents.setToken rfl

theorem Represents.setPriority (represents : a.Represents (before ++ c :: after))
    (priority : Int32) :
    Leaves (Arena.setPriority c.ref priority) a c.token
      (before ++ { c with token := { c.token with priority := priority.toInt } } :: after)
      a.slots.size :=
  represents.setToken rfl

/-!
## Walking
-/

theorem find_of_slot {node : Node} (found : a.slot? r = some node) : a.find r = .ok node := by
  rw [find, found]

theorem Linked.walk_eq (linked : a.Linked p cells none) {fuel : Nat}
    (enough : cells.length ≤ fuel) :
    a.walk fuel (firstOf cells none) = .ok cells := by
  induction cells generalizing p fuel with
  | nil => cases fuel <;> rfl
  | cons c cells ih =>
      cases fuel with
      | zero => cases enough
      | succ fuel =>
          obtain ⟨here, rest⟩ := linked
          have onward := ih rest (Nat.le_of_succ_le_succ enough)
          rw [firstOf_cons, Arena.walk, find_of_slot here]
          change (a.walk fuel (firstOf cells none) >>= fun rest => pure (c :: rest)) = _
          rw [onward]
          rfl

theorem Represents.cells_eq (represents : a.Represents cells) : a.cells = .ok cells := by
  rw [Arena.cells, represents.head]
  exact represents.linked.walk_eq represents.length_le

theorem Represents.insertAt_eq (represents : a.Represents cells) {index : Nat}
    (within : index ≤ cells.length) (t : Token) :
    (∃ before c after, cells = before ++ c :: after ∧ before.length = index ∧
      Arena.insertAt index t a = Arena.insertBefore c.ref t a) ∨
    (index = cells.length ∧ Arena.insertAt index t a = Arena.append t a) := by
  rcases Nat.lt_or_eq_of_le within with inner | rfl
  · refine .inl ⟨cells.take index, cells[index], cells.drop (index + 1), ?_,
      List.length_take_of_le within, ?_⟩
    · rw [List.getElem_cons_drop, List.take_append_drop]
    · rw [Arena.insertAt, get_bind, represents.cells_eq]
      simp only [List.getElem?_eq_getElem inner]
  · refine .inr ⟨rfl, ?_⟩
    rw [Arena.insertAt, get_bind, represents.cells_eq]
    simp only [List.getElem?_eq_none (Nat.le_refl _), if_true]

theorem Represents.insertAt (represents : a.Represents cells) {index : Nat}
    (within : index ≤ cells.length) (room : a.slots.size < UInt32.size) (t : Token) :
    Leaves (Arena.insertAt index t) a a.slots.size
      (cells.take index ++ { ref := a.slots.size, token := t } :: cells.drop index)
      (a.slots.size + 1) := by
  rcases represents.insertAt_eq within t with ⟨before, c, after, rfl, rfl, same⟩ | ⟨rfl, same⟩
  · obtain ⟨a', ran, ends⟩ := represents.insertBefore room t
    exact ⟨a', same.trans ran, by rwa [List.take_left, List.drop_left]⟩
  · obtain ⟨a', ran, ends⟩ := represents.append room t
    exact ⟨a', same.trans ran, by rwa [List.take_length, List.drop_length]⟩

theorem Represents.insertAt_beyond (represents : a.Represents cells) {index : Nat}
    (beyond : cells.length < index) (t : Token) :
    Arena.insertAt index t a = .error (.outOfBounds index) a := by
  rw [Arena.insertAt, get_bind, represents.cells_eq]
  simp only [List.getElem?_eq_none (Nat.le_of_lt beyond), if_neg (Nat.ne_of_gt beyond)]
  rfl

/-!
## Dropping tokens
-/

theorem Represents.dropFromLoop (represents : a.Represents (before ++ after)) {fuel : Nat}
    (enough : after.length ≤ fuel) :
    Leaves (Arena.dropFromLoop fuel (firstOf after none)) a () before a.slots.size := by
  induction after generalizing a fuel with
  | nil =>
      rw [List.append_nil] at represents
      cases fuel <;> exact .pure represents ()
  | cons c after ih =>
      cases fuel with
      | zero => cases enough
      | succ fuel =>
          refine .of_bind_ok represents.node (represents.unlink.bind fun a' represents' size => ?_)
          rw [← size]
          exact ih represents' (Nat.le_of_succ_le_succ enough)

theorem Represents.dropFrom (represents : a.Represents (before ++ c :: after)) :
    Leaves (Arena.dropFrom c.ref) a () before a.slots.size := by
  have long := represents.length_le
  rw [List.length_append] at long
  exact represents.dropFromLoop (Nat.le_trans (Nat.le_add_left _ _) long)

theorem Represents.dropThroughLoop (represents : a.Represents cells) (r : Ref) {fuel : Nat}
    (enough : cells.length ≤ fuel) :
    Leaves (Arena.dropThroughLoop r fuel) a () ((cells.dropWhile fun c => c.ref ≠ r).drop 1)
      a.slots.size := by
  induction cells generalizing a fuel with
  | nil =>
      refine ⟨a, ?_, represents, rfl⟩
      cases fuel <;> rw [Arena.dropThroughLoop, get_bind, represents.head] <;> rfl
  | cons c cells ih =>
      cases fuel with
      | zero => cases enough
      | succ fuel =>
          have first : a.Represents ([] ++ c :: cells) := represents
          obtain ⟨a₁, unlinked, represents₁, size⟩ := first.unlink
          have onward : Leaves (if c.ref = r then pure () else Arena.dropThroughLoop r fuel) a₁ ()
              (((c :: cells).dropWhile fun d => d.ref ≠ r).drop 1) a.slots.size := by
            by_cases met : c.ref = r
            · rw [if_pos met, ← size, List.dropWhile_cons_of_neg (by simpa using met)]
              exact .pure represents₁ ()
            · rw [if_neg met, ← size, List.dropWhile_cons_of_pos (by simpa using met)]
              exact ih represents₁ (Nat.le_of_succ_le_succ enough)
          obtain ⟨a₂, ran, ends⟩ := onward
          refine ⟨a₂, ?_, ends⟩
          rw [Arena.dropThroughLoop, get_bind, represents.head]
          exact (bind_of_ok unlinked _).trans ran

theorem Represents.dropThrough (represents : a.Represents cells) (r : Ref) :
    Leaves (Arena.dropThrough r) a () ((cells.dropWhile fun c => c.ref ≠ r).drop 1) a.slots.size :=
  represents.dropThroughLoop r represents.length_le

theorem Represents.dropBefore (represents : a.Represents (before ++ c :: after)) :
    Leaves (Arena.dropBefore c.ref) a () (c :: after) a.slots.size := by
  refine .of_bind_ok represents.node ?_
  rcases List.eq_nil_or_concat' before with rfl | ⟨before, b, rfl⟩
  · exact .pure represents ()
  · have other : ∀ d ∈ before, decide (d.ref ≠ b.ref) = true := by
      have distinct := represents.distinct
      rw [List.append_assoc, List.map_append, List.nodup_append] at distinct
      intro d hd
      exact decide_eq_true (distinct.2.2 d.ref (List.mem_map_of_mem hd) b.ref (by simp))
    have dropped := represents.dropThrough b.ref
    rw [List.append_assoc, List.dropWhile_append_of_pos other] at dropped
    simpa [lastOf_append, Arena.ifSome] using dropped

theorem Represents.dropAfter (represents : a.Represents (before ++ c :: after)) :
    Leaves (Arena.ifSome (firstOf after none) Arena.dropFrom) a ()
      (before ++ [c]) a.slots.size := by
  cases after with
  | nil => exact .pure represents ()
  | cons d after =>
      have whole : a.Represents ((before ++ [c]) ++ d :: after) := by simpa using represents
      exact whole.dropFrom

theorem Represents.keepRange {inside : List Cell} {d : Cell} (represents : a.Represents cells)
    (first : cells = before ++ c :: cells') (last : c :: cells' = inside ++ d :: after) :
    Leaves (Arena.keepRange c.ref d.ref) a () (inside ++ [d]) a.slots.size := by
  subst first
  refine represents.dropBefore.bind fun a' represents' size => ?_
  rw [last] at represents'
  rw [← size]
  exact .of_bind_ok represents'.node represents'.dropAfter

theorem Represents.keepRange_unlinked (represents : a.Represents (before ++ c :: after))
    (missing : r ∉ (c :: after).map Cell.ref) :
    ∃ a', Arena.keepRange c.ref r a = .error (.unlinked r) a' ∧ a'.Represents (c :: after) := by
  obtain ⟨a', dropped, represents', -⟩ := represents.dropBefore
  have empty : a'.contains r = false := by
    rw [← Bool.not_eq_true, represents'.contains_iff]
    exact missing
  refine ⟨a', (bind_of_ok dropped _).trans ?_, represents'⟩
  exact bind_of_error (node_of_empty empty) _

theorem represents_clear (a : Arena) : Leaves Arena.clear a () [] a.slots.size := by
  refine ⟨{ slots := a.slots.map fun _ => none }, rfl, ⟨rfl, rfl, trivial, .nil, ?_⟩,
    Array.size_map ..⟩
  intro r used
  rw [Arena.contains, slot?, Array.getElem?_map] at used
  cases slot : a.slots[r]? <;> rw [slot] at used <;> cases used

/-!
## Raising priorities
-/

/-- The sum with the priority of a token fits 32 bits, or is wrapped. -/
def Summable (o : Overflow) (amount : Int32) (t : Token) : Prop :=
  o = .stops → (t.raised amount).priority = t.priority + amount.toInt

theorem raise_of_summable {o : Overflow} {amount : Int32} (summable : Summable o amount t) :
    t.raise o amount = .ok (t.raised amount) := by
  rw [Token.raise, if_neg]
  rintro ⟨stops, other⟩
  exact other (summable stops)

theorem raise_of_not_summable {o : Overflow} {amount : Int32} (beyond : ¬ Summable o amount t) :
    t.raise o amount = .error .overflow := by
  rw [Token.raise, if_pos (Classical.not_imp.1 beyond)]

def raiseCell (amount : Int32) (c : Cell) : Cell :=
  { c with token := c.token.raised amount }

/-- The cells up to a reference are raised, if all sums fit, and else the change stops at one that
does not. -/
theorem Represents.boostLoop (represents : a.Represents (before ++ after)) (o : Overflow)
    (closing : Ref) (amount : Int32) {fuel : Nat} (enough : after.length ≤ fuel) :
    ((∀ c ∈ after.takeWhile fun c => c.ref ≠ closing, Summable o amount c.token) →
      Leaves (Arena.boostLoop o closing amount fuel (firstOf after none)) a ()
        (before ++ (after.takeWhile fun c => c.ref ≠ closing).map (raiseCell amount) ++
          after.dropWhile fun c => c.ref ≠ closing) a.slots.size) ∧
    ((∃ c ∈ after.takeWhile fun c => c.ref ≠ closing, ¬ Summable o amount c.token) →
      ∃ a', Arena.boostLoop o closing amount fuel (firstOf after none) a =
        .error .overflow a') := by
  induction after generalizing a before fuel with
  | nil =>
      refine ⟨fun _ => ?_, by simp⟩
      rw [List.append_nil] at represents
      cases fuel <;> exact ⟨a, rfl, by simpa using represents, rfl⟩
  | cons c after ih =>
      cases fuel with
      | zero => cases enough
      | succ fuel =>
          by_cases met : c.ref = closing
          · rw [List.takeWhile_cons_of_neg (by simp [met]),
              List.dropWhile_cons_of_neg (by simp [met])]
            refine ⟨fun _ => ?_, by simp⟩
            rw [firstOf_cons, Arena.boostLoop, if_pos met]
            exact .pure (by simpa using represents) ()
          · rw [List.takeWhile_cons_of_pos (by simpa using met),
              List.dropWhile_cons_of_pos (by simpa using met),
              firstOf_cons, Arena.boostLoop, if_neg met]
            by_cases summable : Summable o amount c.token
            · obtain ⟨a₁, raised, represents₁, size⟩ :=
                represents.setToken (raise_of_summable summable)
              have node := represents₁.node
              have further : a₁.Represents ((before ++ [raiseCell amount c]) ++ after) := by
                simpa [raiseCell] using represents₁
              obtain ⟨fits, stops⟩ := ih further (Nat.le_of_succ_le_succ enough)
              constructor
              · intro all
                obtain ⟨a₂, ran, ends⟩ := fits fun d hd => all d (List.mem_cons_of_mem _ hd)
                refine ⟨a₂, (bind_of_ok raised _).trans ((bind_of_ok node _).trans ran), ?_⟩
                simpa [size] using ends
              · rintro ⟨d, hd, beyond⟩
                rcases List.mem_cons.1 hd with rfl | hd
                · exact absurd summable beyond
                · obtain ⟨a₂, ran⟩ := stops ⟨d, hd, beyond⟩
                  exact ⟨a₂, (bind_of_ok raised _).trans ((bind_of_ok node _).trans ran)⟩
            · refine ⟨fun all => absurd (all c (List.mem_cons_self ..)) summable, fun _ => ⟨a, ?_⟩⟩
              refine bind_of_error ((bind_of_ok represents.node _).trans ?_) _
              simp only [raise_of_not_summable summable]
              rfl

theorem Represents.boostInside (represents : a.Represents (before ++ c :: after)) (o : Overflow)
    (closing : Ref) (amount : Int32) :
    ((∀ d ∈ after.takeWhile fun d => d.ref ≠ closing, Summable o amount d.token) →
      Leaves (Arena.boostInside o c.ref closing amount) a ()
        (before ++ c :: ((after.takeWhile fun d => d.ref ≠ closing).map (raiseCell amount) ++
          after.dropWhile fun d => d.ref ≠ closing)) a.slots.size) ∧
    ((∃ d ∈ after.takeWhile fun d => d.ref ≠ closing, ¬ Summable o amount d.token) →
      ∃ a', Arena.boostInside o c.ref closing amount a = .error .overflow a') := by
  have long := represents.length_le
  rw [List.length_append, List.length_cons] at long
  have whole : a.Represents ((before ++ [c]) ++ after) := by simpa using represents
  obtain ⟨fits, stops⟩ := whole.boostLoop o closing amount
    (show after.length ≤ a.slots.size by omega)
  constructor
  · intro all
    obtain ⟨a', ran, ends⟩ := fits all
    exact ⟨a', (bind_of_ok represents.node _).trans ran, by simpa using ends⟩
  · intro beyond
    obtain ⟨a', ran⟩ := stops beyond
    exact ⟨a', (bind_of_ok represents.node _).trans ran⟩

/-!
## No room
-/

theorem alloc_full (full : ¬ a.slots.size < UInt32.size) (t : Token) (p q : Option Ref) :
    Arena.alloc t p q a = .error .full a := by
  rw [Arena.alloc, get_bind, if_neg full]
  rfl

theorem append_full (full : ¬ a.slots.size < UInt32.size) (t : Token) :
    Arena.append t a = .error .full a := by
  rw [Arena.append, get_bind]
  exact bind_of_error (alloc_full full _ _ _) _

theorem Represents.insertBefore_full (represents : a.Represents (before ++ c :: after))
    (full : ¬ a.slots.size < UInt32.size) (t : Token) :
    Arena.insertBefore c.ref t a = .error .full a :=
  (bind_of_ok represents.node _).trans (bind_of_error (alloc_full full _ _ _) _)

theorem Represents.insertAfter_full (represents : a.Represents (before ++ c :: after))
    (full : ¬ a.slots.size < UInt32.size) (t : Token) :
    Arena.insertAfter c.ref t a = .error .full a :=
  (bind_of_ok represents.node _).trans (bind_of_error (alloc_full full _ _ _) _)

theorem Represents.insertAt_full (represents : a.Represents cells) {index : Nat}
    (within : index ≤ cells.length) (full : ¬ a.slots.size < UInt32.size) (t : Token) :
    Arena.insertAt index t a = .error .full a := by
  rcases represents.insertAt_eq within t with ⟨before, c, after, rfl, -, same⟩ | ⟨-, same⟩
  · exact same.trans (represents.insertBefore_full full t)
  · exact same.trans (append_full full t)

end LineScript.Arena

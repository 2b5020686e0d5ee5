import Mathlib.Data.List.Perm.Subperm
import LineScript.Arena

/-!
# The links of an arena

An arena represents a list of cells if its links, followed from the head or from the tail, meet
these cells, and no other slot is in use (`Arena.Represents`).  Between the two writes of a splice
the links of the cells before it and of those after it do not fit together; each half is then linked
for itself (`Arena.Halves`), and either write changes the seam of one half only.
-/

namespace LineScript.Arena

variable {α β : Type} {a a' : Arena} {r s : Ref} {c : Cell} {cells before after : List Cell}
  {p p' q q' : Option Ref}

/-!
## Running changes
-/

theorem bind_of_ok {x : Change α} {v : α} (ran : x a = .ok v a') (f : α → Change β) :
    (x >>= f) a = f v a' := by
  change EStateM.bind x f a = _
  rw [EStateM.bind, ran]

theorem bind_of_error {x : Change α} {fault : Fault} (ran : x a = .error fault a')
    (f : α → Change β) : (x >>= f) a = .error fault a' := by
  change EStateM.bind x f a = _
  rw [EStateM.bind, ran]

theorem get_bind (f : Arena → Change β) : (get >>= f) a = f a a := rfl

def withSlot (a : Arena) (r : Ref) (node? : Option Node) : Arena :=
  { a with slots := a.slots.setIfInBounds r node? }

theorem put_eq (r : Ref) (node? : Option Node) (a : Arena) :
    put r node? a = .ok () (a.withSlot r node?) := rfl

@[simp] theorem size_withSlot (a : Arena) (r : Ref) (node? : Option Node) :
    (a.withSlot r node?).slots.size = a.slots.size := by
  simp [withSlot]

theorem lt_size {node : Node} (found : a.slot? r = some node) : r < a.slots.size := by
  rw [slot?, Option.join_eq_some_iff] at found
  exact (Array.getElem?_eq_some_iff.1 found).1

theorem slot?_withSlot (within : r < a.slots.size) (node? : Option Node) (s : Ref) :
    (a.withSlot r node?).slot? s = if s = r then node? else a.slot? s := by
  by_cases same : s = r
  · subst same
    simp [slot?, withSlot, within]
  · have other : ¬ r = s := fun eq => same eq.symm
    simp [slot?, withSlot, same, other]

theorem slot?_withSlot_ne (other : s ≠ r) (node? : Option Node) :
    (a.withSlot r node?).slot? s = a.slot? s := by
  have other : ¬ r = s := fun eq => other eq.symm
  simp [slot?, withSlot, other]

theorem node_of_slot {node : Node} (found : a.slot? r = some node) :
    Arena.node r a = .ok node a := by
  have looked : a.find r = .ok node := by rw [find, found]
  rw [Arena.node, get_bind, looked]
  rfl

theorem node_of_empty (empty : a.contains r = false) : Arena.node r a = .error (.unlinked r) a := by
  have missing : a.slot? r = none := by simpa [contains] using empty
  have looked : a.find r = .error (.unlinked r) := by rw [find, missing]
  rw [Arena.node, get_bind, looked]
  rfl

/-!
## Linked cells
-/

def firstOf (cells : List Cell) (q : Option Ref) : Option Ref :=
  match cells with
  | [] => q
  | c :: _ => some c.ref

def lastOf (p : Option Ref) : List Cell → Option Ref
  | [] => p
  | c :: cells => lastOf (some c.ref) cells

@[simp] theorem firstOf_nil : firstOf [] q = q := rfl

@[simp] theorem firstOf_cons : firstOf (c :: cells) q = some c.ref := rfl

@[simp] theorem lastOf_nil : lastOf p [] = p := rfl

@[simp] theorem lastOf_cons : lastOf p (c :: cells) = lastOf (some c.ref) cells := rfl

theorem firstOf_append : firstOf (before ++ after) q = firstOf before (firstOf after q) := by
  cases before <;> rfl

theorem lastOf_append : lastOf p (before ++ after) = lastOf (lastOf p before) after := by
  induction before generalizing p with
  | nil => rfl
  | cons c before ih => exact ih

theorem firstOf_eq_head? : firstOf cells none = cells.head?.map Cell.ref := by
  cases cells <;> rfl

theorem lastOf_eq_getLast? : lastOf none cells = cells.getLast?.map Cell.ref := by
  rcases List.eq_nil_or_concat' cells with rfl | ⟨before, c, rfl⟩
  · rfl
  · simp [lastOf_append]

def Linked (a : Arena) (p : Option Ref) : List Cell → Option Ref → Prop
  | [], _ => True
  | c :: cells, q =>
      a.slot? c.ref = some { token := c.token, prev := p, next := firstOf cells q } ∧
        a.Linked (some c.ref) cells q

theorem linked_append :
    a.Linked p (before ++ after) q ↔
      a.Linked p before (firstOf after q) ∧ a.Linked (lastOf p before) after q := by
  induction before generalizing p with
  | nil => simp [Linked]
  | cons c before ih =>
      simp only [List.cons_append, Linked, ih, firstOf_append, lastOf_cons, and_assoc]

theorem Linked.congr (linked : a.Linked p cells q)
    (same : ∀ r ∈ cells.map Cell.ref, a'.slot? r = a.slot? r) : a'.Linked p cells q := by
  induction cells generalizing p with
  | nil => trivial
  | cons c cells ih =>
      obtain ⟨here, rest⟩ := linked
      exact ⟨(same c.ref (by simp)).trans here, ih rest fun r hr => same r (by simp [hr])⟩

structure Frame (a a' : Arena) (cells : List Cell) : Prop where
  size : a'.slots.size = a.slots.size
  outside : ∀ r, r ∉ cells.map Cell.ref → a'.slot? r = a.slot? r
  contains : ∀ r, a'.contains r = a.contains r

theorem frame_withSlot {node node' : Node} (found : a.slot? c.ref = some node)
    (member : c ∈ cells) :
    Frame a (a.withSlot c.ref (some node')) cells where
  size := by simp
  outside := by
    intro r other
    refine slot?_withSlot_ne ?_ _
    rintro rfl
    exact other (List.mem_map_of_mem member)
  contains := by
    intro r
    rw [Arena.contains, slot?_withSlot (lt_size found)]
    by_cases same : r = c.ref
    · simp [same, Arena.contains, found]
    · simp [same, Arena.contains]

/-- The cells before a place, which end with a link to `q`, and the cells after it, which start with
a link back to `p`. -/
structure Halves (a : Arena) (before : List Cell) (q p : Option Ref)
    (after : List Cell) : Prop where
  head : a.head = firstOf before q
  tail : a.tail = lastOf p after
  left : a.Linked none before q
  right : a.Linked p after none
  distinct : ((before ++ after).map Cell.ref).Nodup

theorem Halves.disjoint (halves : a.Halves before q p after) (left : r ∈ before.map Cell.ref)
    (right : r ∈ after.map Cell.ref) : False := by
  have distinct := halves.distinct
  rw [List.map_append, List.nodup_append] at distinct
  exact distinct.2.2 r left r right rfl

theorem Halves.congr (halves : a.Halves before q p after) (head : a'.head = a.head)
    (tail : a'.tail = a.tail)
    (same : ∀ r ∈ (before ++ after).map Cell.ref, a'.slot? r = a.slot? r) :
    a'.Halves before q p after where
  head := head.trans halves.head
  tail := tail.trans halves.tail
  left := halves.left.congr fun r hr => same r (by simp_all)
  right := halves.right.congr fun r hr => same r (by simp_all)
  distinct := halves.distinct

/-- Writing the link to what follows changes the seam of the cells before it. -/
theorem Halves.setNext (halves : a.Halves before q p after) (q' : Option Ref) :
    ∃ a', Arena.setNext (lastOf none before) q' a = .ok () a' ∧ a'.Halves before q' p after ∧
      Frame a a' before := by
  rcases List.eq_nil_or_concat' before with rfl | ⟨before, c, rfl⟩
  · refine ⟨{ a with head := q' }, rfl, ?_, ⟨rfl, fun _ _ => rfl, fun _ => rfl⟩⟩
    exact { halves with
      head := rfl
      left := trivial
      right := halves.right.congr fun _ _ => rfl }
  · obtain ⟨onLeft, here, -⟩ := linked_append.1 halves.left
    have distinct := halves.distinct
    rw [List.append_assoc, List.map_append, List.nodup_append, List.singleton_append, List.map_cons,
      List.nodup_cons] at distinct
    have other : ∀ r ∈ (before ++ after).map Cell.ref, r ≠ c.ref := by
      intro r hr
      rw [List.map_append, List.mem_append] at hr
      rcases hr with hr | hr
      · exact distinct.2.2 r hr c.ref (by simp)
      · rintro rfl
        exact distinct.2.1.1 hr
    have slot := slot?_withSlot (lt_size here)
      (some { token := c.token, prev := lastOf none before, next := q' })
    have kept : ∀ r ∈ (before ++ after).map Cell.ref, _ :=
      fun r hr => (slot r).trans (if_neg (other r hr))
    refine ⟨a.withSlot c.ref (some { token := c.token, prev := lastOf none before, next := q' }),
      ?_, ?_, frame_withSlot here (by simp)⟩
    · rw [lastOf_append, lastOf_cons, lastOf_nil]
      exact (bind_of_ok (node_of_slot here) _).trans (put_eq _ _ _)
    · refine ⟨?_, halves.tail, linked_append.2 ⟨?_, ?_, trivial⟩, ?_, halves.distinct⟩
      · have head := halves.head
        rw [firstOf_append] at head ⊢
        exact head
      · exact onLeft.congr fun r hr => kept r (by simp_all)
      · rw [slot, if_pos rfl]
        rfl
      · exact halves.right.congr fun r hr => kept r (by simp_all)

/-- Writing the link to what comes before changes the seam of the cells after it. -/
theorem Halves.setPrev (halves : a.Halves before q p after) (p' : Option Ref) :
    ∃ a', Arena.setPrev (firstOf after none) p' a = .ok () a' ∧ a'.Halves before q p' after ∧
      Frame a a' after := by
  cases after with
  | nil =>
      refine ⟨{ a with tail := p' }, rfl, ?_, ⟨rfl, fun _ _ => rfl, fun _ => rfl⟩⟩
      exact { halves with
        tail := rfl
        left := halves.left.congr fun _ _ => rfl
        right := trivial }
  | cons c after =>
      obtain ⟨here, onRight⟩ := halves.right
      have distinct := halves.distinct
      rw [List.map_append, List.map_cons, List.nodup_append, List.nodup_cons] at distinct
      have other : ∀ r ∈ (before ++ after).map Cell.ref, r ≠ c.ref := by
        intro r hr
        rw [List.map_append, List.mem_append] at hr
        rcases hr with hr | hr
        · exact distinct.2.2 r hr c.ref (by simp)
        · rintro rfl
          exact distinct.2.1.1 hr
      have slot := slot?_withSlot (lt_size here)
        (some { token := c.token, prev := p', next := firstOf after none })
      have kept : ∀ r ∈ (before ++ after).map Cell.ref, _ :=
        fun r hr => (slot r).trans (if_neg (other r hr))
      refine ⟨_, (bind_of_ok (node_of_slot here) _).trans (put_eq _ _ _), ?_,
        frame_withSlot here (by simp)⟩
      refine ⟨halves.head, halves.tail, ?_, ⟨?_, ?_⟩, halves.distinct⟩
      · exact halves.left.congr fun r hr => kept r (by simp_all)
      · rw [slot, if_pos rfl]
      · exact onRight.congr fun r hr => kept r (by simp_all)

/-!
## Representation
-/

/-- The links of an arena lead over some cells, and no other slot is in use. -/
structure Represents (a : Arena) (cells : List Cell) : Prop where
  head : a.head = firstOf cells none
  tail : a.tail = lastOf none cells
  linked : a.Linked none cells none
  distinct : (cells.map Cell.ref).Nodup
  occupied : ∀ r, a.contains r = true → r ∈ cells.map Cell.ref

theorem represents_empty : ({} : Arena).Represents [] where
  head := rfl
  tail := rfl
  linked := trivial
  distinct := .nil
  occupied := by simp [Arena.contains, slot?]

theorem Represents.halves (represents : a.Represents (before ++ after)) :
    a.Halves before (firstOf after none) (lastOf none before) after where
  head := by rw [represents.head, firstOf_append]
  tail := by rw [represents.tail, lastOf_append]
  left := (linked_append.1 represents.linked).1
  right := (linked_append.1 represents.linked).2
  distinct := represents.distinct

theorem Halves.represents (halves : a.Halves before (firstOf after none) (lastOf none before) after)
    (occupied : ∀ r, a.contains r = true → r ∈ (before ++ after).map Cell.ref) :
    a.Represents (before ++ after) where
  head := by rw [halves.head, firstOf_append]
  tail := by rw [halves.tail, lastOf_append]
  linked := linked_append.2 ⟨halves.left, halves.right⟩
  distinct := halves.distinct
  occupied := occupied

theorem Halves.join (halves : a.Halves before (some c.ref) (some c.ref) after)
    (here : a.slot? c.ref =
      some { token := c.token, prev := lastOf none before, next := firstOf after none })
    (new : c.ref ∉ (before ++ after).map Cell.ref)
    (occupied : ∀ r, a.contains r = true → r = c.ref ∨ r ∈ (before ++ after).map Cell.ref) :
    a.Represents (before ++ c :: after) where
  head := by rw [halves.head, firstOf_append, firstOf_cons]
  tail := by rw [halves.tail, lastOf_append, lastOf_cons]
  linked := linked_append.2 ⟨halves.left, here, halves.right⟩
  distinct := by
    have perm : (before ++ c :: after).Perm (c :: (before ++ after)) := List.perm_middle
    rw [(perm.map Cell.ref).nodup_iff, List.map_cons, List.nodup_cons]
    exact ⟨new, halves.distinct⟩
  occupied := by
    intro r used
    have := occupied r used
    simp only [List.map_append, List.map_cons, List.mem_append, List.mem_cons] at this ⊢
    tauto

namespace Represents

theorem slot (represents : a.Represents (before ++ c :: after)) :
    a.slot? c.ref = some
      { token := c.token, prev := lastOf none before, next := firstOf after none } :=
  (linked_append.1 represents.linked).2.1

theorem node (represents : a.Represents (before ++ c :: after)) :
    Arena.node c.ref a = .ok
      { token := c.token, prev := lastOf none before, next := firstOf after none } a :=
  node_of_slot represents.slot

theorem contains_iff (represents : a.Represents cells) :
    a.contains r = true ↔ r ∈ cells.map Cell.ref := by
  refine ⟨represents.occupied r, fun member => ?_⟩
  obtain ⟨c, hc, rfl⟩ := List.mem_map.1 member
  obtain ⟨before, after, rfl⟩ := List.append_of_mem hc
  rw [Arena.contains, represents.slot]
  rfl

theorem lt_size (represents : a.Represents cells) (member : r ∈ cells.map Cell.ref) :
    r < a.slots.size := by
  obtain ⟨node, found⟩ := Option.isSome_iff_exists.1 (represents.contains_iff.2 member)
  exact Arena.lt_size found

theorem length_le (represents : a.Represents cells) : cells.length ≤ a.slots.size := by
  have within : cells.map Cell.ref ⊆ List.range a.slots.size := by
    intro r hr
    exact List.mem_range.2 (represents.lt_size hr)
  simpa using (represents.distinct.subperm within).length_le

theorem slot?_beside (represents : a.Represents (before ++ c :: after)) (node? : Option Node) :
    ∀ r ∈ (before ++ after).map Cell.ref, (a.withSlot c.ref node?).slot? r = a.slot? r := by
  have perm : (before ++ c :: after).Perm (c :: (before ++ after)) := List.perm_middle
  have distinct := (perm.map Cell.ref).nodup_iff.1 represents.distinct
  rw [List.map_cons, List.nodup_cons] at distinct
  intro r hr
  refine slot?_withSlot_ne ?_ node?
  rintro rfl
  exact distinct.1 hr

end Represents

end LineScript.Arena

import Mathlib.Data.List.TakeWhile
import LineScript.Proofs.Editing

/-!
# References to removed tokens

A reference whose token was removed is never linked again: an edit links the references that were
linked before and the one that it hands out, and that one is new.  What looks such a reference up
before it changes anything is refused and changes nothing.  Three uses of it do change the line:
`dropThrough` and `boostInside` only compare it with the references that they pass, so the one
empties the line and the other boosts to its end, and `keepRange` looks its second reference up
after it has dropped what stands before the first one.
-/

namespace LineScript

namespace Edit

variable {o : Overflow} {a : Arena} {r s : Ref}

def names : Edit → List Ref
  | .append _ => []
  | .insertBefore r _ => [r]
  | .insertAfter r _ => [r]
  | .insertAt _ _ => []
  | .remove r => [r]
  | .replace r _ => [r]
  | .dropFrom r => [r]
  | .dropThrough r => [r]
  | .keepRange first last => [first, last]
  | .clear => []
  | .boostInside opening closing _ => [opening, closing]
  | .setPriority r _ => [r]

/-- The reference that an edit looks up before it changes anything. -/
def looksUp? : Edit → Option Ref
  | .dropThrough _ => none
  | .keepRange first _ => some first
  | .boostInside opening _ _ => some opening
  | e => e.names.head?

/-- The edits that name a reference without looking it up first. -/
inductive Overlooks (r : Ref) : Edit → Prop where
  | dropThrough : Overlooks r (.dropThrough r)
  | boostInside (opening : Ref) (amount : Int32) : Overlooks r (.boostInside opening r amount)
  | keepRange (first : Ref) : Overlooks r (.keepRange first r)

theorem looksUp_or_overlooks {e : Edit} (named : r ∈ e.names) :
    e.looksUp? = some r ∨ Overlooks r e := by
  cases e with
  | append t => cases named
  | insertAt i t => cases named
  | clear => cases named
  | dropThrough s =>
      obtain rfl := List.mem_singleton.1 named
      exact .inr .dropThrough
  | keepRange first last =>
      rcases List.mem_cons.1 named with rfl | named
      · exact .inl rfl
      · obtain rfl := List.mem_singleton.1 named
        exact .inr (.keepRange first)
  | boostInside opening closing amount =>
      rcases List.mem_cons.1 named with rfl | named
      · exact .inl rfl
      · obtain rfl := List.mem_singleton.1 named
        exact .inr (.boostInside opening amount)
  | _ =>
      obtain rfl := List.mem_singleton.1 named
      exact .inl rfl

/-- An edit whose first look-up fails changes nothing. -/
theorem run_unlinked {e : Edit} (looked : e.looksUp? = some r) (unlinked : a.contains r = false) :
    e.run o a = .error (.unlinked r) a := by
  have missing {α β : Type} (f : Node → Arena.Change α) (g : α → Arena.Change β) :
      ((Arena.node r >>= f) >>= g) a = .error (.unlinked r) a :=
    Arena.bind_of_error (Arena.bind_of_error (Arena.node_of_empty unlinked) f) g
  cases e with
  | append t => cases looked
  | insertAt i t => cases looked
  | clear => cases looked
  | dropThrough s => cases looked
  | remove s =>
      cases looked
      exact Arena.bind_of_error (Arena.bind_of_error
        (Arena.bind_of_error (Arena.node_of_empty unlinked) _) _) _
  | keepRange first last =>
      cases looked
      exact Arena.bind_of_error (Arena.bind_of_error
        (Arena.bind_of_error (Arena.node_of_empty unlinked) _) _) _
  | dropFrom s =>
      cases looked
      have dropped : Arena.dropFrom r a = .error (.unlinked r) a := by
        rw [Arena.dropFrom, Arena.get_bind]
        cases a.slots.size with
        | zero => rfl
        | succ fuel => exact Arena.bind_of_error (Arena.node_of_empty unlinked) _
      exact Arena.bind_of_error dropped _
  | _ =>
      cases looked
      exact missing _ _

/-- An edit is refused at the reference that it looks up first, with the line as it was. -/
def Refused (o : Overflow) (a : Arena) (e : Edit) : Prop :=
  ∃ s, e.looksUp? = some s ∧ a.contains s = false ∧ e.run o a = .error (.unlinked s) a

theorem refused_or_overlooks {e : Edit} (named : r ∈ e.names) (unlinked : a.contains r = false) :
    e.Refused o a ∨ e.Overlooks r ∧ ∀ s, e.looksUp? = some s → a.contains s = true := by
  rcases looksUp_or_overlooks named with looked | overlooks
  · exact .inl ⟨r, looked, unlinked, run_unlinked looked unlinked⟩
  · by_cases linked : ∀ s, e.looksUp? = some s → a.contains s = true
    · exact .inr ⟨overlooks, linked⟩
    · simp only [not_forall, Bool.not_eq_true] at linked
      obtain ⟨s, looked, missing⟩ := linked
      exact .inl ⟨s, looked, missing, run_unlinked looked missing⟩

end Edit

namespace Arena

variable {o : Overflow} {a : Arena} {r : Ref} {c : Cell} {cells before after : List Cell}

theorem find_unlinked (unlinked : a.contains r = false) : a.find r = .error (.unlinked r) := by
  have missing : a.slot? r = none := by simpa [contains] using unlinked
  rw [find, missing]

theorem Represents.ne_of_unlinked (represents : a.Represents cells)
    (unlinked : a.contains r = false) : ∀ c ∈ cells, c.ref ≠ r := by
  rintro c hc rfl
  rw [represents.contains_iff.2 (List.mem_map_of_mem hc)] at unlinked
  cases unlinked

theorem Represents.dropThrough_unlinked (represents : a.Represents cells)
    (unlinked : a.contains r = false) : Leaves (Arena.dropThrough r) a () [] a.slots.size := by
  have dropped := represents.dropThrough r
  rwa [List.dropWhile_eq_nil_iff.2
    (fun c hc => decide_eq_true (represents.ne_of_unlinked unlinked c hc))] at dropped

theorem Represents.boostInside_unlinked (represents : a.Represents (before ++ c :: after))
    (unlinked : a.contains r = false) (amount : Int32)
    (fits : ∀ d ∈ after, Summable o amount d.token) :
    Leaves (Arena.boostInside o c.ref r amount) a ()
      (before ++ c :: after.map (raiseCell amount)) a.slots.size := by
  have other : ∀ d ∈ after, decide (d.ref ≠ r) = true := fun d hd =>
    decide_eq_true (represents.ne_of_unlinked unlinked d (by simp [hd]))
  have boosted := (represents.boostInside o r amount).1
  rw [List.takeWhile_eq_self_iff.2 other, List.dropWhile_eq_nil_iff.2 other,
    List.append_nil] at boosted
  exact boosted fits

end Arena

namespace Edited

variable {o : Overflow} {d d' : Edited} {r : Ref} {cells : List Cell}

/-- The line handed out the reference, and it is not linked. -/
structure Removed (d : Edited) (r : Ref) : Prop where
  given : r ∈ d.given
  unlinked : d.arena.contains r = false

/-- What edits that fit make of a line. -/
inductive Later (o : Overflow) (d : Edited) : Edited → Prop where
  | same : Later o d d
  | edit {d' d'' : Edited} (later : Later o d d') (e : Edit) (fits : e.Fits d'.arena)
      (ran : d'.edit o e = .ok d'') : Later o d d''

theorem Removed.edit (removed : d.Removed r) (orderly : d.Orderly cells) {e : Edit}
    (fits : e.Fits d.arena) (ran : d.edit o e = .ok d') : d'.Removed r := by
  obtain ⟨given, orderly'⟩ := orderly.edit fits ran
  refine ⟨by simp [given, removed.given], ?_⟩
  rw [← Bool.not_eq_true, orderly'.represents.contains_iff, List.mem_map]
  rintro ⟨c, member, rfl⟩
  rcases Edit.mem_onCells orderly.represents fits member with ⟨-, new, -⟩ | ⟨b, old, same, -⟩
  · exact Nat.lt_irrefl _ (new ▸ orderly.below _ removed.given)
  · exact orderly.represents.ne_of_unlinked removed.unlinked b old same.symm

theorem Removed.later (removed : d.Removed r) (orderly : d.Orderly cells) (later : d.Later o d') :
    d'.Removed r ∧ ∃ cells', d'.Orderly cells' := by
  induction later with
  | same => exact ⟨removed, cells, orderly⟩
  | edit later e fits ran ih =>
      obtain ⟨removed', cells', orderly'⟩ := ih
      exact ⟨removed'.edit orderly' fits ran, _, (orderly'.edit fits ran).2⟩

/-- A reference whose token was removed stays unlinked, whatever edits follow.  Reading at it is
refused, and so is every edit that names it, with the line as it was; the three that overlook it are
`dropThrough`, which empties the line, `boostInside` to it, which boosts all that follows its first
reference, and `keepRange` to it, which drops what stands before its first reference and is refused
then. -/
theorem removed_refused {all : List Edited} (reached : Reached o all) (held : d ∈ all)
    (removed : d.Removed r) (later : d.Later o d') :
    d'.arena.contains r = false ∧
      d'.arena.get r = .error (.unlinked r) ∧ d'.arena.next r = .error (.unlinked r) ∧
      d'.arena.prev r = .error (.unlinked r) ∧
      (∀ e : Edit, r ∈ e.names → e.Refused o d'.arena ∨
        e.Overlooks r ∧ ∀ s, e.looksUp? = some s → d'.arena.contains s = true) ∧
      ∃ cells, d'.arena.Holds cells ∧
        (∃ a, (Edit.dropThrough r).run o d'.arena = .ok none a ∧ a.Holds []) ∧
        ∀ before c after, cells = before ++ c :: after →
          (∀ amount, (∀ b ∈ after, Arena.Summable o amount b.token) →
            ∃ a, (Edit.boostInside c.ref r amount).run o d'.arena = .ok none a ∧
              a.Holds (before ++ c :: after.map (Arena.raiseCell amount))) ∧
          ∃ a, (Edit.keepRange c.ref r).run o d'.arena = .error (.unlinked r) a ∧
            a.Holds (c :: after) := by
  obtain ⟨cells, orderly⟩ := orderly_of_reached reached d held
  obtain ⟨removed', cells', orderly'⟩ := removed.later orderly later
  have represents := orderly'.represents
  have unlinked := removed'.unlinked
  have missing := Arena.find_unlinked unlinked
  refine ⟨unlinked, congrArg (Except.map _) missing, congrArg (Except.map _) missing,
    congrArg (Except.map _) missing, fun e named => Edit.refused_or_overlooks named unlinked,
    cells', represents.holds, ?_, ?_⟩
  · obtain ⟨a, ran, empty, -⟩ := Edit.Leaves.quiet (represents.dropThrough_unlinked unlinked)
    exact ⟨a, ran, empty.holds⟩
  · rintro before c after rfl
    constructor
    · intro amount fits
      obtain ⟨a, ran, boosted, -⟩ :=
        Edit.Leaves.quiet (represents.boostInside_unlinked unlinked amount fits)
      exact ⟨a, ran, boosted.holds⟩
    · have absent : r ∉ (c :: after).map Cell.ref := by
        rw [List.mem_map]
        rintro ⟨b, hb, same⟩
        exact represents.ne_of_unlinked unlinked b (List.mem_append_right _ hb) same
      obtain ⟨a, ran, kept⟩ := represents.keepRange_unlinked absent
      exact ⟨a, Arena.bind_of_error ran _, kept.holds⟩

def gapped : Edited :=
  made [comma, comma, comma, .remove 1]

theorem removed_refused_gapped :
    Reached .stops [gapped] ∧ gapped.Removed 1 ∧
      gapped.Later .stops (made [comma, comma, comma, .remove 1, comma]) ∧
      (made [comma, comma, comma, .remove 1, comma]).arena.next 1 = .error (.unlinked 1) ∧
      (Edit.keepRange 1 2).Refused .stops (made [comma, comma, comma, .remove 1, comma]).arena ∧
      ∃ a, (Edit.keepRange 2 1).run .stops (made [comma, comma, comma, .remove 1, comma]).arena =
        .error (.unlinked 1) a ∧ a.Holds [commaAt 2, commaAt 3] := by
  have reached : Reached .stops [gapped] := .edit 0 (.remove 1) reached_commas rfl (by decide) rfl
  have removed : gapped.Removed 1 := ⟨by decide, rfl⟩
  have later : gapped.Later .stops (made [comma, comma, comma, .remove 1, comma]) :=
    .edit .same comma (by decide) rfl
  obtain ⟨-, -, next, -, refuses, cells, holds, -, inside⟩ :=
    removed_refused reached (List.mem_singleton.2 rfl) removed later
  obtain rfl : [commaAt 0, commaAt 2, commaAt 3] = cells :=
    (holds.forward _).1 (.meet rfl rfl (.meet rfl rfl (.meet rfl rfl .done)))
  have first := (refuses (.keepRange 1 2) (by decide)).resolve_right nofun
  exact ⟨reached, removed, later, next, first, (inside [commaAt 0] (commaAt 2) [commaAt 3] rfl).2⟩

/-- The third comma is lost, or boosted, at a reference to the second one, which was removed; and
the first is lost before a range that ends there is refused. -/
theorem removed_overlooked_gapped :
    Reached .stops [gapped] ∧ gapped.Removed 1 ∧
      (∃ a, (Edit.dropThrough 1).run .stops gapped.arena = .ok none a ∧ a.content = []) ∧
      (∃ a, (Edit.boostInside 0 1 5).run .stops gapped.arena = .ok none a ∧
        a.content.map (fun c => c.token.priority) = [Priority.inert, Priority.inert + 5]) ∧
      ∃ a, (Edit.keepRange 2 1).run .stops gapped.arena = .error (.unlinked 1) a ∧
        a.content = [commaAt 2] :=
  ⟨.edit 0 (.remove 1) reached_commas rfl (by decide) rfl, ⟨by decide, rfl⟩, ⟨_, rfl, rfl⟩,
    ⟨_, rfl, rfl⟩, _, rfl, rfl⟩

end Edited

end LineScript

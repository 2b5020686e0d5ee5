import Mathlib.Algebra.Group.Int.Defs
import Mathlib.Data.List.Induction
import LineScript.Proofs.Arena.Operations

/-!
# Editing lines

A line is read by walking from reference to reference and changed by edits that name their place by
a reference.  Whatever edits have been made, of the line itself and of the lines that it was copied
from, both walks meet the same cells, and an edit does to them what the list operation of the same
meaning does.  References are never handed out twice.  Only two things stop an edit that fits: a new
token when all references of 32 bits have been handed out, and a sum of priorities that does not
fit, if sums do not wrap.
-/

namespace LineScript

namespace Arena

inductive Walk (a : Arena) (ask : Ref → Except Fault (Option Ref)) :
    Option Ref → List Cell → Prop where
  | done : Walk a ask none []
  | meet {r : Ref} {t : Token} {next : Option Ref} {cells : List Cell} (here : a.get r = .ok t)
      (asked : ask r = .ok next) (onward : Walk a ask next cells) :
      Walk a ask (some r) ({ ref := r, token := t } :: cells)

theorem Walk.unique {a : Arena} {ask : Ref → Except Fault (Option Ref)} {start : Option Ref}
    {cells cells' : List Cell} (walk : Walk a ask start cells) (walk' : Walk a ask start cells') :
    cells = cells' := by
  induction walk generalizing cells' with
  | done =>
      cases walk'
      rfl
  | meet here asked onward ih =>
      cases walk' with
      | meet here' asked' onward' =>
          rw [here] at here'
          rw [asked] at asked'
          cases here'
          cases asked'
          rw [ih onward']

/-- Both walks over the links meet some cells, each once, and these are all that is linked. -/
structure Holds (a : Arena) (cells : List Cell) : Prop where
  forward : ∀ walked, a.Walk a.next a.head walked ↔ walked = cells
  backward : ∀ walked, a.Walk a.prev a.tail walked ↔ walked = cells.reverse
  distinct : (cells.map Cell.ref).Nodup
  occupied : ∀ r, a.contains r = true ↔ r ∈ cells.map Cell.ref

variable {a : Arena} {p q : Option Ref} {cells : List Cell}

theorem Linked.forward (linked : a.Linked p cells none) :
    a.Walk a.next (firstOf cells none) cells := by
  induction cells generalizing p with
  | nil => exact .done
  | cons c cells ih =>
      obtain ⟨here, rest⟩ := linked
      exact .meet (t := c.token) (by rw [Arena.get, find_of_slot here]; rfl)
        (by rw [Arena.next, find_of_slot here]; rfl) (ih rest)

theorem Linked.backward (linked : a.Linked none cells q) :
    a.Walk a.prev (lastOf none cells) cells.reverse := by
  induction cells using List.reverseRecOn generalizing q with
  | nil => exact .done
  | append_singleton cells c ih =>
      obtain ⟨rest, here, -⟩ := linked_append.1 linked
      rw [lastOf_append, List.reverse_concat]
      exact .meet (t := c.token) (by rw [Arena.get, find_of_slot here]; rfl)
        (by rw [Arena.prev, find_of_slot here]; rfl) (ih rest)

theorem Represents.holds (represents : a.Represents cells) : a.Holds cells where
  forward := by
    have walk := represents.head ▸ represents.linked.forward
    exact fun walked => ⟨fun walk' => walk'.unique walk, by rintro rfl; exact walk⟩
  backward := by
    have walk := represents.tail ▸ represents.linked.backward
    exact fun walked => ⟨fun walk' => walk'.unique walk, by rintro rfl; exact walk⟩
  distinct := represents.distinct
  occupied := fun _ => represents.contains_iff

def content (a : Arena) : List Cell :=
  match a.cells with
  | .ok cells => cells
  | .error _ => []

theorem Represents.content_eq (represents : a.Represents cells) : a.content = cells := by
  rw [content, represents.cells_eq]

end Arena

def Token.FitsWord (t : Token) : Prop :=
  -2 ^ 31 ≤ t.priority ∧ t.priority < 2 ^ 31

instance (t : Token) : Decidable t.FitsWord :=
  inferInstanceAs (Decidable (_ ∧ _))

inductive Edit where
  | append (t : Token)
  | insertBefore (r : Ref) (t : Token)
  | insertAfter (r : Ref) (t : Token)
  | insertAt (index : Nat) (t : Token)
  | remove (r : Ref)
  | replace (r : Ref) (t : Token)
  | dropFrom (r : Ref)
  | dropThrough (r : Ref)
  | keepRange (first last : Ref)
  | clear
  | boostInside (opening closing : Ref) (amount : Int32)
  | setPriority (r : Ref) (priority : Int32)
  deriving DecidableEq, Repr

namespace Edit

def giving (change : Arena.Change Ref) : Arena.Change (Option Ref) := do
  return some (← change)

def quiet {α : Type} (change : Arena.Change α) : Arena.Change (Option Ref) := do
  let _ ← change
  return none

def run (o : Overflow) : Edit → Arena.Change (Option Ref)
  | .append t => giving (Arena.append t)
  | .insertBefore r t => giving (Arena.insertBefore r t)
  | .insertAfter r t => giving (Arena.insertAfter r t)
  | .insertAt index t => giving (Arena.insertAt index t)
  | .remove r => quiet (Arena.remove r)
  | .replace r t => quiet (Arena.replace r t)
  | .dropFrom r => quiet (Arena.dropFrom r)
  | .dropThrough r => quiet (Arena.dropThrough r)
  | .keepRange first last => quiet (Arena.keepRange first last)
  | .clear => quiet Arena.clear
  | .boostInside opening closing amount => quiet (Arena.boostInside o opening closing amount)
  | .setPriority r priority => quiet (Arena.setPriority r priority)

def token? : Edit → Option Token
  | .append t => some t
  | .insertBefore _ t => some t
  | .insertAfter _ t => some t
  | .insertAt _ t => some t
  | _ => none

/-- The reference that an edit hands out for a new token. -/
def gives? (a : Arena) (e : Edit) : Option Ref :=
  e.token?.map fun _ => a.slots.size

def place (r : Ref) (cells : List Cell) : Nat :=
  cells.findIdx fun c => c.ref = r

/-- All references are linked, an index is not past the end, a range is not empty, and the
priorities of tokens are numbers of 32 bits. -/
def Fits (a : Arena) : Edit → Prop
  | .append t => t.FitsWord
  | .insertBefore r t => a.contains r ∧ t.FitsWord
  | .insertAfter r t => a.contains r ∧ t.FitsWord
  | .insertAt index t => index ≤ a.content.length ∧ t.FitsWord
  | .remove r => a.contains r
  | .replace r t => a.contains r ∧ t.FitsWord
  | .dropFrom r => a.contains r
  | .dropThrough r => a.contains r
  | .keepRange first last =>
      a.contains first ∧ a.contains last ∧ place first a.content ≤ place last a.content
  | .clear => True
  | .boostInside opening closing _ => a.contains opening ∧ a.contains closing
  | .setPriority r _ => a.contains r

instance (a : Arena) : (e : Edit) → Decidable (e.Fits a)
  | .append t => inferInstanceAs (Decidable t.FitsWord)
  | .insertBefore _ _ => inferInstanceAs (Decidable (_ ∧ _))
  | .insertAfter _ _ => inferInstanceAs (Decidable (_ ∧ _))
  | .insertAt _ _ => inferInstanceAs (Decidable (_ ∧ _))
  | .remove _ => inferInstanceAs (Decidable (_ = true))
  | .replace _ _ => inferInstanceAs (Decidable (_ ∧ _))
  | .dropFrom _ => inferInstanceAs (Decidable (_ = true))
  | .dropThrough _ => inferInstanceAs (Decidable (_ = true))
  | .keepRange _ _ => inferInstanceAs (Decidable (_ ∧ _ ∧ _))
  | .clear => inferInstanceAs (Decidable True)
  | .boostInside _ _ _ => inferInstanceAs (Decidable (_ ∧ _))
  | .setPriority _ _ => inferInstanceAs (Decidable (_ = true))

def stop (opening closing : Ref) (cells : List Cell) : Nat :=
  if place opening cells < place closing cells then place closing cells else cells.length

/-- There is a reference left for a new token, and all sums fit. -/
def Room (o : Overflow) (a : Arena) : Edit → Prop
  | .boostInside opening closing amount =>
      ∀ c ∈ (a.content.take (stop opening closing a.content)).drop (place opening a.content + 1),
        Arena.Summable o amount c.token
  | e => e.token?.isSome → a.slots.size < UInt32.size

/-- What an edit means for the sequence of cells, if a new one gets a given reference. -/
def onCells (new : Ref) (cells : List Cell) : Edit → List Cell
  | .append t => cells ++ [{ ref := new, token := t }]
  | .insertBefore r t => cells.insertIdx (place r cells) { ref := new, token := t }
  | .insertAfter r t => cells.insertIdx (place r cells + 1) { ref := new, token := t }
  | .insertAt index t => cells.insertIdx index { ref := new, token := t }
  | .remove r => cells.eraseIdx (place r cells)
  | .replace r t => cells.set (place r cells) { ref := r, token := t }
  | .dropFrom r => cells.take (place r cells)
  | .dropThrough r => cells.drop (place r cells + 1)
  | .keepRange first last => (cells.take (place last cells + 1)).drop (place first cells)
  | .clear => []
  | .boostInside opening closing amount =>
      cells.mapIdx fun i c =>
        if place opening cells < i ∧ i < stop opening closing cells then Arena.raiseCell amount c
        else c
  | .setPriority r priority =>
      cells.modify (place r cells) fun c =>
        { c with token := { c.token with priority := priority.toInt } }

variable {o : Overflow} {a a' : Arena} {cells before after : List Cell} {r : Ref} {t : Token}
    {n : Nat}

/-!
## Edits as list operations
-/

structure Found (cells : List Cell) (r : Ref) (before : List Cell) (c : Cell) (after : List Cell) :
    Prop where
  split : cells = before ++ c :: after
  ref : c.ref = r
  notBefore : ∀ b ∈ before, b.ref ≠ r
  place : place r cells = before.length

theorem exists_found (distinct : (cells.map Cell.ref).Nodup) (member : r ∈ cells.map Cell.ref) :
    ∃ before c after, Found cells r before c after := by
  obtain ⟨c, hc, rfl⟩ := List.mem_map.1 member
  obtain ⟨before, after, rfl⟩ := List.append_of_mem hc
  have notBefore : ∀ b ∈ before, b.ref ≠ c.ref := by
    rw [List.map_append, List.nodup_append] at distinct
    intro b hb
    exact distinct.2.2 b.ref (List.mem_map_of_mem hb) c.ref (by simp)
  refine ⟨before, c, after, rfl, rfl, notBefore, ?_⟩
  have passed : before.findIdx (fun d => decide (d.ref = c.ref)) = before.length := by
    rw [List.findIdx_eq_length]
    intro b hb
    exact decide_eq_false (notBefore b hb)
  rw [place, List.findIdx_append, passed, if_neg (Nat.lt_irrefl _)]
  simp [List.findIdx_cons]

theorem insertIdx_append (before after : List Cell) (c : Cell) :
    (before ++ after).insertIdx before.length c = before ++ c :: after := by
  induction before with
  | nil => simp
  | cons b before ih => simp [List.insertIdx_succ_cons, ih]

theorem modify_append (before after : List Cell) (c : Cell) (change : Cell → Cell) :
    (before ++ c :: after).modify before.length change = before ++ change c :: after := by
  induction before with
  | nil => simp
  | cons b before ih => simp [ih]

theorem mapIdx_between (change : Cell → Cell) (before inside after : List Cell) {start stop : Nat}
    (starts : before.length = start + 1) (stops : stop = start + 1 + inside.length) :
    (before ++ (inside ++ after)).mapIdx (fun i c => if start < i ∧ i < stop then change c else c) =
      before ++ (inside.map change ++ after) := by
  apply List.ext_getElem
  · simp
  · intro i inLeft inRight
    simp only [List.getElem_mapIdx, List.getElem_append, List.getElem_map, List.length_map]
    by_cases early : i < before.length
    · rw [dif_pos early, dif_pos early, if_neg (by omega)]
    · rw [dif_neg early, dif_neg early]
      by_cases late : i - before.length < inside.length
      · rw [dif_pos late, dif_pos late, if_pos (by omega)]
      · rw [dif_neg late, dif_neg late, if_neg (by omega)]

/-- The cells that are boosted are those after the opening one until the closing one is met. -/
theorem stop_eq (distinct : (cells.map Cell.ref).Nodup) {opening closing : Ref}
    {c : Cell} (found : Found cells opening before c after)
    (linked : closing ∈ cells.map Cell.ref) :
    stop opening closing cells =
      before.length + 1 + (after.takeWhile fun d => d.ref ≠ closing).length := by
  obtain ⟨before', d, after', found'⟩ := exists_found distinct linked
  have upto : before ++ [c] <+: cells := ⟨after, by simp [found.split]⟩
  have upto' : before' ++ [d] <+: cells := ⟨after', by simp [found'.split]⟩
  rw [stop, found.place, found'.place]
  split
  case isTrue later =>
    obtain ⟨inside, same⟩ := List.prefix_of_prefix_length_le upto ⟨_, found'.split.symm⟩ (by
      rw [List.length_append, List.length_singleton]
      omega)
    have rest : after = inside ++ d :: after' := by
      have whole := found.split.symm.trans found'.split
      rw [← same] at whole
      simpa using whole
    have inner : ∀ e ∈ inside, decide (e.ref ≠ closing) = true := by
      intro e he
      exact decide_eq_true (found'.notBefore e (by simp [← same, he]))
    rw [rest, List.takeWhile_append_of_pos inner, ← same]
    simp [found'.ref]
    omega
  case isFalse earlier =>
    have never : ∀ e ∈ after, decide (e.ref ≠ closing) = true := by
      obtain ⟨between, same⟩ := List.prefix_of_prefix_length_le upto' upto (by
        simp only [List.length_append, List.length_singleton]
        omega)
      have whole : cells = (before' ++ [d] ++ between) ++ after := by
        rw [same, found.split]
        simp
      rw [whole, List.map_append, List.nodup_append] at distinct
      intro e he
      refine decide_eq_true (Ne.symm ?_)
      rw [← found'.ref]
      exact distinct.2.2 d.ref (List.mem_map_of_mem (by simp)) e.ref (List.mem_map_of_mem he)
    have all : (after.takeWhile fun e => e.ref ≠ closing) = after := by
      have := @List.takeWhile_append_of_pos _ _ after [] never
      simpa using this
    rw [all, found.split]
    simp
    omega

theorem Found.boosted (found : Found cells r before c after) (n : Nat) :
    (cells.take (before.length + 1 + n)).drop (Edit.place r cells + 1) = after.take n := by
  have whole : cells = (before ++ [c]) ++ after := by simp [found.split]
  have long : (before ++ [c]).length = before.length + 1 := by simp
  rw [found.place, whole, ← long, List.take_length_add_append, List.drop_left]

theorem Found.raised (found : Found cells r before c after) {closing : Ref}
    (stops : stop r closing cells =
      before.length + 1 + (after.takeWhile fun d => d.ref ≠ closing).length)
    (new : Ref) (amount : Int32) :
    onCells new cells (.boostInside r closing amount) =
      before ++ c :: ((after.takeWhile fun d => d.ref ≠ closing).map (Arena.raiseCell amount) ++
        after.dropWhile fun d => d.ref ≠ closing) := by
  have long : (before ++ [c]).length = before.length + 1 := by simp
  have between := mapIdx_between (Arena.raiseCell amount) (before ++ [c])
    (after.takeWhile fun d => d.ref ≠ closing) (after.dropWhile fun d => d.ref ≠ closing) long stops
  have whole : (before ++ [c]) ++ after = cells := by simp [found.split]
  rw [List.takeWhile_append_dropWhile, whole, List.append_assoc] at between
  rw [onCells, found.place, between, List.singleton_append]

theorem Found.passed (found : Found cells r before c after) :
    (cells.dropWhile fun d => d.ref ≠ r).drop 1 = cells.drop (Edit.place r cells + 1) := by
  rw [found.place, found.split, List.dropWhile_append_of_pos (by simpa using found.notBefore)]
  simp [found.ref]

/-- The cells from one to another one that is not before it. -/
theorem Found.range (found : Found cells r before c after) {last : Ref} {before' after' : List Cell}
    {d : Cell} (found' : Found cells last before' d after')
    (le : Edit.place r cells ≤ Edit.place last cells) :
    ∃ inside, c :: after = inside ++ d :: after' ∧
      (cells.take (Edit.place last cells + 1)).drop (Edit.place r cells) = inside ++ [d] := by
  rw [found.place, found'.place] at le ⊢
  obtain ⟨inside, same⟩ := List.prefix_of_prefix_length_le ⟨_, found.split.symm⟩
    ⟨_, found'.split.symm⟩ le
  have rest : c :: after = inside ++ d :: after' := by
    have whole := found.split.symm.trans found'.split
    rw [← same, List.append_assoc] at whole
    exact List.append_cancel_left whole
  have front : cells = (before ++ (inside ++ [d])) ++ after' := by
    rw [found.split, rest]
    simp
  have long : (before ++ (inside ++ [d])).length = before'.length + 1 := by
    simp [← same]
    omega
  exact ⟨inside, rest, by rw [front, ← long, List.take_left, List.drop_left]⟩

theorem Leaves.giving {change : Arena.Change Ref} {new : Ref}
    (leaves : Arena.Leaves change a new cells n) :
    Arena.Leaves (giving change) a (some new) cells n :=
  leaves.bind fun _ represents size => size ▸ .pure represents _

theorem Leaves.quiet {α : Type} {change : Arena.Change α} {v : α}
    (leaves : Arena.Leaves change a v cells n) :
    Arena.Leaves (quiet change) a none cells n :=
  leaves.bind fun _ represents size => size ▸ .pure represents _

theorem exists_found_of_linked (represents : a.Represents cells) (linked : a.contains r = true) :
    ∃ before c after, Found cells r before c after :=
  exists_found represents.distinct (represents.contains_iff.1 linked)

/-- An edit that fits succeeds if there is room for it, and does what it means. -/
theorem run_leaves (represents : a.Represents cells) (e : Edit) (fits : e.Fits a)
    (room : e.Room o a) :
    Arena.Leaves (e.run o) a (e.gives? a) (e.onCells a.slots.size cells)
      (a.slots.size + (e.gives? a).toList.length) := by
  have content := represents.content_eq
  cases e with
  | append t => exact Leaves.giving (represents.append (room rfl) t)
  | insertBefore r t =>
      obtain ⟨before, c, after, found⟩ := exists_found_of_linked represents fits.1
      rw [onCells, found.place]
      obtain ⟨rfl, rfl, -, -⟩ := found
      rw [insertIdx_append]
      exact Leaves.giving (represents.insertBefore (room rfl) t)
  | insertAfter r t =>
      obtain ⟨before, c, after, found⟩ := exists_found_of_linked represents fits.1
      have behind := insertIdx_append (before ++ [c]) after { ref := a.slots.size, token := t }
      rw [onCells, found.place]
      obtain ⟨rfl, rfl, -, -⟩ := found
      simp only [List.append_assoc, List.singleton_append, List.length_append,
        List.length_singleton] at behind
      rw [behind]
      exact Leaves.giving (represents.insertAfter (room rfl) t)
  | insertAt index t =>
      have within : index ≤ cells.length := content ▸ fits.1
      have there := insertIdx_append (cells.take index) (cells.drop index)
        { ref := a.slots.size, token := t }
      rw [List.take_append_drop, List.length_take_of_le within] at there
      rw [onCells, there]
      exact Leaves.giving (represents.insertAt within (room rfl) t)
  | remove r =>
      obtain ⟨before, c, after, found⟩ := exists_found_of_linked represents fits
      rw [onCells, found.place]
      obtain ⟨rfl, rfl, -, -⟩ := found
      rw [List.eraseIdx_append_of_length_le (Nat.le_refl _), Nat.sub_self, List.eraseIdx_cons_zero]
      exact Leaves.quiet represents.remove
  | replace r t =>
      obtain ⟨before, c, after, found⟩ := exists_found_of_linked represents fits.1
      rw [onCells, found.place]
      obtain ⟨rfl, rfl, -, -⟩ := found
      rw [List.set_append_right _ _ (Nat.le_refl _), Nat.sub_self, List.set_cons_zero]
      exact Leaves.quiet (represents.replace t)
  | dropFrom r =>
      obtain ⟨before, c, after, found⟩ := exists_found_of_linked represents fits
      rw [onCells, found.place]
      obtain ⟨rfl, rfl, -, -⟩ := found
      rw [List.take_left]
      exact Leaves.quiet represents.dropFrom
  | dropThrough r =>
      obtain ⟨before, c, after, found⟩ := exists_found_of_linked represents fits
      rw [onCells, ← found.passed]
      exact Leaves.quiet (represents.dropThrough r)
  | keepRange first last =>
      obtain ⟨linked, linked', le⟩ := fits
      obtain ⟨before, c, after, found⟩ := exists_found_of_linked represents linked
      obtain ⟨before', d, after', found'⟩ := exists_found_of_linked represents linked'
      obtain ⟨inside, rest, range⟩ := found.range found' (content ▸ le)
      rw [onCells, range]
      have kept := Leaves.quiet (represents.keepRange found.split rest)
      rwa [found.ref, found'.ref] at kept
  | clear => exact Leaves.quiet (Arena.represents_clear a)
  | boostInside opening closing amount =>
      obtain ⟨before, c, after, found⟩ := exists_found_of_linked represents fits.1
      have linked := represents.contains_iff.1 fits.2
      have stops := stop_eq represents.distinct found linked
      rw [Room, content, stops, found.boosted,
        ← List.prefix_iff_eq_take.1 (List.takeWhile_prefix _)] at room
      rw [found.raised stops]
      obtain ⟨rfl, rfl, -, -⟩ := found
      exact Leaves.quiet ((represents.boostInside o closing amount).1 room)
  | setPriority r priority =>
      obtain ⟨before, c, after, found⟩ := exists_found_of_linked represents fits
      rw [onCells, found.place]
      obtain ⟨rfl, rfl, -, -⟩ := found
      rw [modify_append]
      exact Leaves.quiet (represents.setPriority priority)

/-- Without room an edit that fits stops. -/
theorem run_stops (represents : a.Represents cells) (e : Edit) (fits : e.Fits a)
    (full : ¬ e.Room o a) :
    ∃ fault a', e.run o a = .error fault a' ∧ (fault = .full ∨ fault = .overflow) := by
  have content := represents.content_eq
  have stopped {α β : Type} {change : Arena.Change α} (f : α → Arena.Change β) {fault : Fault}
      {a' : Arena} (ran : change a = .error fault a') (which : fault = .full ∨ fault = .overflow) :
      ∃ fault a', (change >>= f) a = .error fault a' ∧ (fault = .full ∨ fault = .overflow) :=
    ⟨fault, a', Arena.bind_of_error ran f, which⟩
  cases e with
  | append t => exact stopped _ (Arena.append_full (fun room => full fun _ => room) t) (.inl rfl)
  | insertBefore r t =>
      obtain ⟨before, c, after, found⟩ := exists_found_of_linked represents fits.1
      obtain ⟨rfl, rfl, -, -⟩ := found
      exact stopped _ (represents.insertBefore_full (fun room => full fun _ => room) t) (.inl rfl)
  | insertAfter r t =>
      obtain ⟨before, c, after, found⟩ := exists_found_of_linked represents fits.1
      obtain ⟨rfl, rfl, -, -⟩ := found
      exact stopped _ (represents.insertAfter_full (fun room => full fun _ => room) t) (.inl rfl)
  | insertAt index t =>
      have within : index ≤ cells.length := content ▸ fits.1
      exact stopped _ (represents.insertAt_full within (fun room => full fun _ => room) t)
        (.inl rfl)
  | boostInside opening closing amount =>
      obtain ⟨before, c, after, found⟩ := exists_found_of_linked represents fits.1
      have stops := stop_eq represents.distinct found (represents.contains_iff.1 fits.2)
      rw [Room, content, stops, found.boosted,
        ← List.prefix_iff_eq_take.1 (List.takeWhile_prefix _)] at full
      simp only [not_forall] at full
      obtain ⟨d, hd, beyond⟩ := full
      obtain ⟨rfl, rfl, -, -⟩ := found
      obtain ⟨a', ran⟩ := (represents.boostInside o closing amount).2 ⟨d, hd, beyond⟩
      exact stopped _ ran (.inr rfl)
  | _ => exact absurd nofun full

/-!
## References and priorities
-/

theorem fitsWord_toInt (t : Token) (n : Int32) :
    ({ t with priority := n.toInt } : Token).FitsWord :=
  ⟨n.le_toInt, n.toInt_lt⟩

/-- Each cell after an edit is the new one, or one from before with what the edit has made of its
token. -/
theorem mem_onCells (represents : a.Represents cells) {e : Edit} (fits : e.Fits a) {new : Ref}
    {c : Cell} (member : c ∈ e.onCells new cells) :
    (e.token? = some c.token ∧ c.ref = new ∧ c.token.FitsWord) ∨
      ∃ d ∈ cells, c.ref = d.ref ∧ (d.token.FitsWord → c.token.FitsWord) := by
  have old (kept : c ∈ cells) : (e.token? = some c.token ∧ c.ref = new ∧ c.token.FitsWord) ∨
      ∃ d ∈ cells, c.ref = d.ref ∧ (d.token.FitsWord → c.token.FitsWord) :=
    .inr ⟨c, kept, rfl, id⟩
  cases e with
  | append t =>
      rcases List.mem_append.1 member with kept | added
      · exact old kept
      · obtain rfl := List.mem_singleton.1 added
        exact .inl ⟨rfl, rfl, fits⟩
  | insertBefore r t =>
      rcases List.eq_or_mem_of_mem_insertIdx member with rfl | kept
      · exact .inl ⟨rfl, rfl, fits.2⟩
      · exact old kept
  | insertAfter r t =>
      rcases List.eq_or_mem_of_mem_insertIdx member with rfl | kept
      · exact .inl ⟨rfl, rfl, fits.2⟩
      · exact old kept
  | insertAt index t =>
      rcases List.eq_or_mem_of_mem_insertIdx member with rfl | kept
      · exact .inl ⟨rfl, rfl, fits.2⟩
      · exact old kept
  | remove r => exact old (List.mem_of_mem_eraseIdx member)
  | replace r t =>
      rcases List.mem_or_eq_of_mem_set member with kept | rfl
      · exact old kept
      · obtain ⟨d, hd, same⟩ := List.mem_map.1 (represents.contains_iff.1 fits.1)
        exact .inr ⟨d, hd, same.symm, fun _ => fits.2⟩
  | dropFrom r => exact old (List.mem_of_mem_take member)
  | dropThrough r => exact old (List.mem_of_mem_drop member)
  | keepRange first last => exact old (List.mem_of_mem_take (List.mem_of_mem_drop member))
  | clear => cases member
  | boostInside opening closing amount =>
      obtain ⟨i, within, rfl⟩ := List.mem_mapIdx.1 member
      refine .inr ⟨cells[i], List.getElem_mem within, ?_⟩
      split
      · exact ⟨rfl, fun _ => fitsWord_toInt _ _⟩
      · exact ⟨rfl, id⟩
  | setPriority r priority =>
      obtain ⟨before, d, after, found⟩ := exists_found_of_linked represents fits
      rw [onCells, found.place] at member
      obtain ⟨rfl, rfl, -, -⟩ := found
      rw [modify_append] at member
      rcases List.mem_append.1 member with kept | member
      · exact old (List.mem_append_left _ kept)
      · rcases List.mem_cons.1 member with rfl | kept
        · exact .inr ⟨d, by simp, rfl, fun _ => fitsWord_toInt _ _⟩
        · exact old (by simp [kept])

end Edit

/-!
## Sequences of edits
-/

/-- A line with all references that it has handed out.  A copy takes over those of its original. -/
structure Edited where
  arena : Arena := {}
  given : List Ref := []
  deriving DecidableEq, Repr

def Edited.edit (o : Overflow) (d : Edited) (e : Edit) : Except Fault Edited :=
  match e.run o d.arena with
  | .ok new? arena => .ok { arena, given := d.given ++ new?.toList }
  | .error fault _ => .error fault

def Edited.line (d : Edited) : Line :=
  { cells := d.arena.content, nextRef := d.arena.slots.size }

/-- The lines that an empty one becomes by edits that fit and by copying. -/
inductive Reached (o : Overflow) : List Edited → Prop where
  | start : Reached o [{}]
  | edit {all : List Edited} {d d' : Edited} (on : Nat) (e : Edit) (reached : Reached o all)
      (held : all[on]? = some d) (fits : e.Fits d.arena) (ran : d.edit o e = .ok d') :
      Reached o (all.set on d')
  | copy {all : List Edited} {d : Edited} (on : Nat) (reached : Reached o all)
      (held : all[on]? = some d) : Reached o (all ++ [d])

namespace Edited

variable {o : Overflow} {d d' : Edited} {cells : List Cell}

/-- The arena represents some cells, with priorities of 32 bits, and all references that were handed
out are those of slots. -/
structure Orderly (d : Edited) (cells : List Cell) : Prop where
  represents : d.arena.Represents cells
  words : ∀ c ∈ cells, c.token.FitsWord
  below : ∀ r ∈ d.given, r < d.arena.slots.size

theorem Orderly.edit_ok (orderly : d.Orderly cells) {e : Edit} (fits : e.Fits d.arena)
    (room : e.Room o d.arena) :
    ∃ d', d.edit o e = .ok d' ∧ d'.given = d.given ++ (e.gives? d.arena).toList ∧
      d'.Orderly (e.onCells d.arena.slots.size cells) := by
  obtain ⟨a', ran, represents, size⟩ := Edit.run_leaves orderly.represents e fits room
  refine ⟨{ arena := a', given := d.given ++ (e.gives? d.arena).toList },
    by rw [Edited.edit, ran], rfl, represents, ?_, ?_⟩
  · intro c hc
    rcases Edit.mem_onCells orderly.represents fits hc with ⟨-, -, word⟩ | ⟨c', hc', -, word⟩
    · exact word
    · exact word (orderly.words c' hc')
  · intro r given
    simp only [size]
    rcases List.mem_append.1 given with old | new
    · exact Nat.lt_of_lt_of_le (orderly.below r old) (Nat.le_add_right _ _)
    · obtain ⟨t, -, rfl⟩ := Option.map_eq_some_iff.1 (Option.mem_toList.1 new)
      simp only [List.length_pos_of_mem new, Nat.lt_add_right_iff_pos]

theorem Orderly.edit_error (orderly : d.Orderly cells) {e : Edit} (fits : e.Fits d.arena)
    (full : ¬ e.Room o d.arena) :
    ∃ fault, d.edit o e = .error fault ∧ (fault = .full ∨ fault = .overflow) := by
  obtain ⟨fault, a', ran, which⟩ := Edit.run_stops orderly.represents e fits full
  exact ⟨fault, by rw [Edited.edit, ran], which⟩

theorem Orderly.edit (orderly : d.Orderly cells) {e : Edit} (fits : e.Fits d.arena)
    (ran : d.edit o e = .ok d') :
    d'.given = d.given ++ (e.gives? d.arena).toList ∧
      d'.Orderly (e.onCells d.arena.slots.size cells) := by
  by_cases room : e.Room o d.arena
  · obtain ⟨d₁, ran', ends⟩ := orderly.edit_ok fits room
    rw [ran] at ran'
    cases ran'
    exact ends
  · obtain ⟨fault, ran', -⟩ := orderly.edit_error fits room
    rw [ran] at ran'
    cases ran'

theorem orderly_of_reached {all : List Edited} (reached : Reached o all) :
    ∀ d ∈ all, ∃ cells, d.Orderly cells := by
  induction reached with
  | start =>
      intro d hd
      obtain rfl := List.mem_singleton.1 hd
      exact ⟨[], Arena.represents_empty, nofun, nofun⟩
  | edit _ e _ held fits ran ih =>
      intro d hd
      rcases List.mem_or_eq_of_mem_set hd with old | rfl
      · exact ih d old
      · obtain ⟨cells, orderly⟩ := ih _ (List.mem_of_getElem? held)
        exact ⟨_, (orderly.edit fits ran).2⟩
  | copy _ _ held ih =>
      intro d hd
      rcases List.mem_append.1 hd with old | new
      · exact ih d old
      · obtain rfl := List.mem_singleton.1 new
        exact ih d (List.mem_of_getElem? held)

theorem Orderly.line_distinct (orderly : d.Orderly cells) : d.line.refs.Nodup := by
  rw [Line.refs, line, orderly.represents.content_eq]
  exact orderly.represents.distinct

/-- Lines refine lists.  Of every line that edits and copies have made, the walk from the first
token over the next ones and that from the last token over the ones before both end, meet the same
cells in opposite orders, none twice, and just those that are linked.  An edit that fits does to
these cells what the list operation does, and a reference that it hands out was never handed out
before; without room for it, it stops. -/
theorem reached_refines {all : List Edited} (reached : Reached o all) (held : d ∈ all) :
    ∃ cells, d.arena.Holds cells ∧ (∀ c ∈ cells, c.token.FitsWord) ∧
      ∀ e : Edit, e.Fits d.arena →
        (e.Room o d.arena → ∃ d', d.edit o e = .ok d' ∧
          d'.arena.Holds (e.onCells d.arena.slots.size cells) ∧
          d'.given = d.given ++ (e.gives? d.arena).toList ∧
          ∀ r, e.gives? d.arena = some r → r ∉ d.given) ∧
        (¬ e.Room o d.arena →
          ∃ fault, d.edit o e = .error fault ∧ (fault = .full ∨ fault = .overflow)) := by
  obtain ⟨cells, orderly⟩ := orderly_of_reached reached d held
  refine ⟨cells, orderly.represents.holds, orderly.words, fun e fits =>
    ⟨fun room => ?_, fun full => ?_⟩⟩
  · obtain ⟨d', ran, given, orderly'⟩ := orderly.edit_ok fits room
    refine ⟨d', ran, orderly'.represents.holds, given, ?_⟩
    intro r gives member
    obtain ⟨t, -, rfl⟩ := Option.map_eq_some_iff.1 gives
    exact Nat.lt_irrefl _ (orderly.below _ member)
  · exact orderly.edit_error fits full

def made (edits : List Edit) : Edited :=
  match edits.foldlM (fun d e => Edited.edit .stops d e) {} with
  | .ok d => d
  | .error _ => {}

def comma : Edit :=
  .append (.new .comma 0 1)

def commaAt (r : Ref) : Cell :=
  { ref := r, token := .new .comma 0 1 }

theorem reached_commas : Reached .stops [made [comma, comma, comma]] :=
  have one : Reached .stops [made [comma]] := .edit 0 comma .start rfl (by decide) rfl
  have two : Reached .stops [made [comma, comma]] := .edit 0 comma one rfl (by decide) rfl
  .edit 0 comma two rfl (by decide) rfl

theorem reached_refines_commas :
    Reached .stops [made [comma, comma, comma], made [comma, comma, comma, .remove 1]] ∧
      (made [comma, comma, comma, .remove 1]).arena.Holds [commaAt 0, commaAt 2] ∧
      (∃ d', (made [comma, comma, comma, .remove 1]).edit .stops
          (.insertAfter 0 (.new .comma 0 1)) = .ok d' ∧
        d'.arena.Holds [commaAt 0, commaAt 3, commaAt 2] ∧ d'.given = [0, 1, 2, 3]) ∧
      ∃ fault, (made [comma, comma, comma]).edit .stops (.boostInside 0 2 Int32.minValue) =
        .error fault := by
  have both : Reached .stops [made [comma, comma, comma], made [comma, comma, comma, .remove 1]] :=
    .edit 1 (.remove 1) (.copy 0 reached_commas rfl) rfl (by decide) rfl
  obtain ⟨cells, holds, -, edits⟩ := reached_refines both
    (List.mem_cons_of_mem _ (List.mem_singleton.2 rfl))
  obtain rfl : [commaAt 0, commaAt 2] = cells :=
    (holds.forward _).1 (.meet rfl rfl (.meet rfl rfl .done))
  obtain ⟨d', ran, after, given, -⟩ :=
    (edits (.insertAfter 0 (.new .comma 0 1)) (by decide)).1 fun _ => by decide
  obtain ⟨whole, holds', -, edits'⟩ := reached_refines both (List.mem_cons_self ..)
  have full : ¬ (Edit.boostInside 0 2 Int32.minValue).Room .stops
    (made [comma, comma, comma]).arena :=
    fun room => absurd (room (commaAt 1) (by decide) rfl) (by decide)
  obtain ⟨fault, stopped, -⟩ := (edits' _ (by decide)).2 full
  exact ⟨both, holds, ⟨d', ran, after, given⟩, fault, stopped⟩

end Edited

end LineScript

import LineScript.Proofs.Splicing

/-!
# The token that acts

A step acts on the leftmost cell of the highest priority.  `Focus.Chosen` says this of a focus, and
`Machine.next_chosen` that such a focus, in a line whose references differ from each other, is the
one that a step acts on.
-/

namespace LineScript

def Cell.Fresh (c : Cell) : Prop :=
  c.token.priority = c.token.kind.basePriority ∧ c.token.expanded = false

instance (c : Cell) : Decidable c.Fresh :=
  inferInstanceAs (Decidable (_ ∧ _))

theorem TokenKind.basePriority_le_control (k : TokenKind) : k.basePriority ≤ Priority.control := by
  cases k with
  | operator op => cases op <;> decide
  | keyword k => cases k <;> decide
  | bracket b side => cases b <;> cases side <;> decide
  | _ => simp [basePriority, Priority.inert, Priority.template, Priority.declaration,
      Priority.control]

namespace Focus

/-- The cell in focus is the leftmost one of the highest priority. -/
structure Chosen (f : Focus) : Prop where
  left : ∀ c ∈ f.before, c.token.priority < f.cell.token.priority
  right : ∀ c ∈ f.after, c.token.priority ≤ f.cell.token.priority

end Focus

namespace Line

private theorem chosen_foldl (passed : List Cell) (best : Cell) (skipped cells : List Cell)
    (left : ∀ c ∈ passed, c.token.priority < best.token.priority)
    (right : ∀ c ∈ skipped, c.token.priority ≤ best.token.priority) :
    ∃ f : Focus, f.cells = passed.reverse ++ best :: skipped ++ cells ∧ f.Chosen ∧
      cells.foldl dominant best = f.cell := by
  induction cells generalizing passed best skipped with
  | nil => exact ⟨⟨passed, best, skipped⟩, by simp [Focus.cells], ⟨left, right⟩, rfl⟩
  | cons c cells ih =>
      by_cases higher : best.token.priority < c.token.priority
      · have left' : ∀ b ∈ skipped.reverse ++ best :: passed,
            b.token.priority < c.token.priority := by
          intro b hb
          rcases List.mem_append.1 hb with hb | hb
          · exact Int.lt_of_le_of_lt (right b (List.mem_reverse.1 hb)) higher
          · rcases List.mem_cons.1 hb with rfl | hb
            · exact higher
            · exact Int.lt_trans (left b hb) higher
        obtain ⟨f, same, chosen, found⟩ := ih _ c [] left' (by simp)
        refine ⟨f, ?_, chosen, ?_⟩
        · rw [same]
          simp
        · rw [List.foldl_cons, dominant, if_pos higher, found]
      · have right' : ∀ b ∈ skipped ++ [c], b.token.priority ≤ best.token.priority := by
          intro b hb
          rcases List.mem_append.1 hb with hb | hb
          · exact right b hb
          · rw [List.mem_singleton.1 hb]
            omega
        obtain ⟨f, same, chosen, found⟩ := ih passed best _ left right'
        refine ⟨f, ?_, chosen, ?_⟩
        · rw [same]
          simp
        · rw [List.foldl_cons, dominant, if_neg higher, found]

theorem exists_chosen {l : Line} {c : Cell} (first : l.cells.head? = some c)
    (noBrace : c.token.kind.isScopeBracket = false) :
    ∃ f : Focus, f.cells = l.cells ∧ f.Chosen ∧ l.highest? = some f.cell.ref := by
  obtain ⟨cs, hcs⟩ : ∃ cs, l.cells = c :: cs := by
    cases h : l.cells with
    | nil => simp [h] at first
    | cons d cs =>
        rw [h] at first
        cases first
        exact ⟨cs, rfl⟩
  obtain ⟨f, same, chosen, found⟩ := chosen_foldl [] c [] cs (by simp) (by simp)
  refine ⟨f, ?_, chosen, ?_⟩
  · rw [same, hcs]
    simp
  · simp [highest?, hcs, noBrace, found]

theorem chosen_unique {f g : Focus} (same : f.cells = g.cells) (hf : f.Chosen) (hg : g.Chosen) :
    f = g := by
  obtain ⟨fb, fc, fa⟩ := f
  obtain ⟨gb, gc, ga⟩ := g
  simp only [Focus.cells] at same
  rcases List.append_eq_append_iff.1 same with ⟨mid, hb, hc⟩ | ⟨mid, hb, hc⟩
  · cases mid with
    | nil =>
        simp only [List.nil_append, List.cons.injEq] at hc
        simp only [List.append_nil] at hb
        rw [List.reverse_inj.1 hb, hc.1, hc.2]
    | cons d mid =>
        simp only [List.cons_append, List.cons.injEq] at hc
        have low := hg.left fc (List.mem_reverse.1 (by rw [hb, hc.1]; simp))
        have high := hf.right gc (by rw [hc.2]; simp)
        simp only at low high
        omega
  · cases mid with
    | nil =>
        simp only [List.nil_append, List.cons.injEq] at hc
        simp only [List.append_nil] at hb
        rw [List.reverse_inj.1 hb, hc.1, hc.2]
    | cons d mid =>
        simp only [List.cons_append, List.cons.injEq] at hc
        have low := hf.left gc (List.mem_reverse.1 (by rw [hb, hc.1]; simp))
        have high := hg.right fc (by rw [hc.2]; simp)
        simp only at low high
        omega

end Line

namespace Machine

structure Ready (m : Machine) : Prop where
  running : m.finished = false
  unselected : m.work.selected = none
  distinct : m.work.line.refs.Nodup

theorem next_picked {m : Machine} {f : Focus} (running : m.finished = false)
    (distinct : m.work.line.refs.Nodup) (same : f.cells = m.work.line.cells)
    (picked : Action.choice? m.work = some f.cell.ref) :
    m.next = ((Action.act f).outcome
      { m with work := { m.work with selected := none } }).map Prod.snd := by
  have nonempty : m.work.line.cells ≠ [] := by
    rw [← same, Focus.cells]
    simp
  have located : m.work.line.focus f.cell.ref = .ok f := Line.focus_eq_ok distinct same
  have notEmpty : m.work.line.isEmpty = false := by
    simpa [Line.isEmpty] using nonempty
  unfold next Action.step
  rw [Action.outcome_bind]
  simp only [Action.outcome_get, Except.bind_ok, running, Bool.false_eq_true, if_false, notEmpty]
  rw [Action.outcome_bind]
  simp only [Action.outcome_modify, Except.bind_ok, picked]
  rw [Action.outcome_bind]
  simp [located, orFault, running]

theorem choice?_chosen {m : Machine} {f : Focus} (unselected : m.work.selected = none)
    (same : f.cells = m.work.line.cells)
    (noBrace : ∀ c, m.work.line.cells.head? = some c → c.token.kind.isScopeBracket = false)
    (chosen : f.Chosen) : Action.choice? m.work = some f.cell.ref := by
  obtain ⟨c, first⟩ : ∃ c, m.work.line.cells.head? = some c := by
    cases h : m.work.line.cells with
    | nil => simp [← same, Focus.cells] at h
    | cons c cs => exact ⟨c, rfl⟩
  obtain ⟨g, sameG, chosenG, found⟩ := Line.exists_chosen first (noBrace c first)
  have fg : f = g := Line.chosen_unique (by rw [same, sameG]) chosen chosenG
  subst fg
  simp [Action.choice?, unselected, found]

theorem next_chosen {m : Machine} {f : Focus} (ready : m.Ready)
    (same : f.cells = m.work.line.cells)
    (noBrace : ∀ c, m.work.line.cells.head? = some c → c.token.kind.isScopeBracket = false)
    (chosen : f.Chosen) :
    m.next = ((Action.act f).outcome m).map Prod.snd := by
  have picked := choice?_chosen ready.unselected same noBrace chosen
  have unchanged : { m with work := { m.work with selected := none } } = m := by
    rw [← ready.unselected]
  rw [next_picked ready.running ready.distinct same picked, unchanged]

end Machine

end LineScript

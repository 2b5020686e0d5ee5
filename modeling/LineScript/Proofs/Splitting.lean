import Mathlib.Data.List.Chain
import Mathlib.Data.List.Forall2
import Mathlib.Data.List.TakeWhile
import LineScript.Template

/-!
# Templates are split without loss

A template is read from left to right: each `{` outside of a placeholder belongs to the next `}`
(`Template.Scans`).  The leftmost fault is reported, a placeholder with nothing but blanks or,
behind all placeholders, a `{` that no `}` follows.  Without one the segments are the texts and
names of the template, and with the placeholders put back in the places of their names they are the
template again (`Template.segments_exact`).
-/

namespace LineScript

namespace Text

structure Trimmed (cs : List Char) : Prop where
  filled : cs ≠ []
  first : ∀ c ∈ cs.head?, isBlank c = false
  last : ∀ c ∈ cs.getLast?, isBlank c = false

theorem trimChars_append (cs : List Char) :
    trimChars cs ++ ((cs.dropWhile isBlank).reverse.takeWhile isBlank).reverse =
      cs.dropWhile isBlank := by
  rw [trimChars, ← List.reverse_append, List.takeWhile_append_dropWhile, List.reverse_reverse]

theorem exists_append_trimChars (cs : List Char) :
    ∃ left right, cs = left ++ trimChars cs ++ right ∧ (∀ c ∈ left, isBlank c = true) ∧
      ∀ c ∈ right, isBlank c = true := by
  refine ⟨cs.takeWhile isBlank, ((cs.dropWhile isBlank).reverse.takeWhile isBlank).reverse, ?_,
    fun c hc => List.mem_takeWhile_imp hc,
    fun c hc => List.mem_takeWhile_imp (List.mem_reverse.1 hc)⟩
  rw [List.append_assoc, trimChars_append, List.takeWhile_append_dropWhile]

theorem trimChars_eq_nil_iff {cs : List Char} : trimChars cs = [] ↔ ∀ c ∈ cs, isBlank c = true := by
  constructor
  · intro empty c hc
    obtain ⟨left, right, same, onLeft, onRight⟩ := exists_append_trimChars cs
    rw [same, empty, List.append_nil, List.mem_append] at hc
    exact hc.elim (onLeft c) (onRight c)
  · intro blank
    rw [trimChars, List.dropWhile_eq_nil_iff.2 blank]
    rfl

theorem isBlank_head?_dropWhile {cs : List Char} {c : Char}
    (first : c ∈ (cs.dropWhile isBlank).head?) : isBlank c = false := by
  have stops := List.head?_dropWhile_not isBlank cs
  rwa [Option.mem_def.1 first] at stops

theorem trimmed_trimChars {cs : List Char} (filled : trimChars cs ≠ []) : Trimmed
    (trimChars cs) where
  filled := filled
  first := by
    intro c first
    refine isBlank_head?_dropWhile (?_ : c ∈ (cs.dropWhile isBlank).head?)
    rwa [← trimChars_append, List.head?_append_of_ne_nil _ filled]
  last := by
    intro c last
    rw [trimChars, List.getLast?_reverse] at last
    exact isBlank_head?_dropWhile last

end Text

namespace Template

/-!
## Reading a template
-/

/-- A placeholder and the text before it. -/
structure Part where
  before : List Char
  inside : List Char

namespace Part

def braced (p : Part) : List Char :=
  '\x7b' :: p.inside ++ ['\x7d']

def Blank (p : Part) : Prop :=
  ∀ c ∈ p.inside, Text.isBlank c = true

/-- The placeholder has a name, with nothing but blanks around it. -/
def Names (p : Part) (name : String) : Prop :=
  Text.Trimmed name.toList ∧
    ∃ left right, p.inside = left ++ name.toList ++ right ∧ (∀ c ∈ left, Text.isBlank c = true) ∧
      ∀ c ∈ right, Text.isBlank c = true

end Part

inductive Tail where
  | text (cs : List Char)
  /-- A `{` without a `}` after it. -/
  | unclosed (before inside : List Char)

def Part.source (p : Part) : List Char :=
  p.before ++ p.braced

def Tail.source : Tail → List Char
  | .text cs => cs
  | .unclosed before inside => before ++ '\x7b' :: inside

/-- The placeholders of a template and what follows them, read from left to right. -/
inductive Scans : List Char → List Part → Tail → Prop where
  | text {cs : List Char} (plain : '\x7b' ∉ cs) : Scans cs [] (.text cs)
  | unclosed {before inside : List Char} (plain : '\x7b' ∉ before) (endless : '\x7d' ∉ inside) :
      Scans (before ++ '\x7b' :: inside) [] (.unclosed before inside)
  | part {before inside rest : List Char} {parts : List Part} {tail : Tail}
      (plain : '\x7b' ∉ before)
      (closes : '\x7d' ∉ inside) (onward : Scans rest parts tail) :
      Scans (before ++ '\x7b' :: (inside ++ '\x7d' :: rest)) (⟨before, inside⟩ :: parts) tail

variable {cs : List Char} {parts : List Part} {tail : Tail}

theorem exists_scans (cs : List Char) : ∃ parts tail, Scans cs parts tail := by
  induction size : cs.length using Nat.strongRecOn generalizing cs with
  | ind n ih =>
      by_cases opened : '\x7b' ∈ cs
      · obtain ⟨before, after, rfl, plain⟩ := List.eq_append_cons_of_mem opened
        by_cases closed : '\x7d' ∈ after
        · obtain ⟨inside, rest, rfl, closes⟩ := List.eq_append_cons_of_mem closed
          have shorter : rest.length < n := by
            rw [← size]
            simp only [List.length_append, List.length_cons]
            omega
          obtain ⟨parts, tail, onward⟩ := ih _ shorter rest rfl
          exact ⟨_, _, .part plain closes onward⟩
        · exact ⟨_, _, .unclosed plain closed⟩
      · exact ⟨_, _, .text opened⟩

theorem Scans.source (scans : Scans cs parts tail) :
    parts.flatMap Part.source ++ tail.source = cs := by
  induction scans with
  | text => rfl
  | unclosed => rfl
  | part plain closes onward ih =>
      rw [List.flatMap_cons, List.append_assoc, ih]
      simp [Part.source, Part.braced]

theorem Scans.plain (scans : Scans cs parts tail) :
    (∀ p ∈ parts, '\x7b' ∉ p.before) ∧ ∀ last, tail = .text last → '\x7b' ∉ last := by
  induction scans with
  | text plain =>
      refine ⟨List.forall_mem_nil _, ?_⟩
      rintro _ ⟨⟩
      exact plain
  | unclosed => exact ⟨List.forall_mem_nil _, nofun⟩
  | part plain closes onward ih => exact ⟨List.forall_mem_cons.2 ⟨plain, ih.1⟩, ih.2⟩

/-!
## Splitting
-/

section

variable {before inside rest : List Char}

theorem forall_notOpen (plain : '\x7b' ∉ before) : ∀ c ∈ before, notOpen c = true := by
  intro c hc
  rw [notOpen, decide_eq_true_iff]
  rintro rfl
  exact plain hc

theorem forall_notClose (closes : '\x7d' ∉ inside) : ∀ c ∈ inside, notClose c = true := by
  intro c hc
  rw [notClose, decide_eq_true_iff]
  rintro rfl
  exact closes hc

theorem split_text (plain : '\x7b' ∉ before) : Template.split before = .ok
    (textSegment before) := by
  have all := forall_notOpen plain
  rw [Template.split]
  split
  · rw [List.takeWhile_eq_self_iff.2 all]
  · rename_i opened
    rw [List.dropWhile_eq_nil_iff.2 all] at opened
    cases opened

theorem split_opens (plain : '\x7b' ∉ before) (after : List Char) :
    Template.split (before ++ '\x7b' :: after) =
      match after.dropWhile notClose with
      | [] => .error (.neverClosed "\x7b")
      | _ :: rest =>
          let name := Text.trimChars (after.takeWhile notClose)
          if name.isEmpty then .error (.cannotReduce "\x7b\x7d")
          else do
            let segments ← Template.split rest
            return textSegment before ++ .name (String.ofList name) :: segments := by
  have all := forall_notOpen plain
  have opens : (before ++ '\x7b' :: after).dropWhile notOpen = '\x7b' :: after := by
    rw [List.dropWhile_append_of_pos all, List.dropWhile_cons_of_neg (by decide)]
  rw [Template.split, List.takeWhile_append_of_pos all, List.takeWhile_cons_of_neg (by decide),
    List.append_nil]
  split
  · rename_i opened
    rw [opens] at opened
    cases opened
  · rename_i opened
    rw [opens] at opened
    cases opened
    split <;> rename_i closed <;> rw [closed]

theorem split_unclosed (plain : '\x7b' ∉ before) (endless : '\x7d' ∉ inside) :
    Template.split (before ++ '\x7b' :: inside) = .error (.neverClosed "\x7b") := by
  rw [split_opens plain, List.dropWhile_eq_nil_iff.2 (forall_notClose endless)]

theorem split_part (plain : '\x7b' ∉ before) (closes : '\x7d' ∉ inside) :
    Template.split (before ++ '\x7b' :: (inside ++ '\x7d' :: rest)) =
      if (Text.trimChars inside).isEmpty then .error (.cannotReduce "\x7b\x7d")
      else do
        let segments ← Template.split rest
        return textSegment before ++ .name (String.ofList (Text.trimChars inside)) :: segments := by
  have all := forall_notClose closes
  rw [split_opens plain, List.dropWhile_append_of_pos all, List.dropWhile_cons_of_neg (by decide),
    List.takeWhile_append_of_pos all, List.takeWhile_cons_of_neg (by decide), List.append_nil]

end

def Part.segments (p : Part) : List Segment :=
  textSegment p.before ++ [.name (String.ofList (Text.trimChars p.inside))]

theorem Part.isEmpty_iff {p : Part} : (Text.trimChars p.inside).isEmpty = true ↔ p.Blank := by
  rw [List.isEmpty_iff, Text.trimChars_eq_nil_iff, Blank]

def Tail.segments : Tail → Except Cause (List Segment)
  | .text cs => .ok (textSegment cs)
  | .unclosed _ _ => .error (.neverClosed "\x7b")

theorem Scans.split_blank (scans : Scans cs parts tail) (blank : ∃ p ∈ parts, p.Blank) :
    Template.split cs = .error (.cannotReduce "\x7b\x7d") := by
  induction scans with
  | text => simp at blank
  | unclosed => simp at blank
  | @part before inside rest parts tail plain closes onward ih =>
      rw [split_part plain closes]
      split
      · rfl
      · rename_i named
        rw [Part.isEmpty_iff (p := ⟨before, inside⟩)] at named
        obtain ⟨p, member, empty⟩ := blank
        rcases List.mem_cons.1 member with rfl | later
        · contradiction
        · rw [ih ⟨p, later, empty⟩]
          rfl

theorem Scans.split_named (scans : Scans cs parts tail) (named : ∀ p ∈ parts, ¬ p.Blank) :
    Template.split cs = tail.segments.map fun last => parts.flatMap Part.segments ++ last := by
  induction scans with
  | text plain => rw [split_text plain]; rfl
  | unclosed plain endless => rw [split_unclosed plain endless]; rfl
  | @part before inside rest parts tail plain closes onward ih =>
      obtain ⟨first, others⟩ := List.forall_mem_cons.1 named
      rw [split_part plain closes, if_neg (mt (Part.isEmpty_iff (p := ⟨before, inside⟩)).1 first),
        ih others]
      cases tail.segments with
      | error cause => rfl
      | ok last => simp [Part.segments, Except.map, bind, Except.bind, pure, Except.pure]

/-!
## Segments
-/

def Segment.name? : Segment → Option String
  | .text _ => none
  | .name s => some s

/-- Texts are not empty, hold no `{` and do not stand side by side, and names have no blanks around
them. -/
structure Tidy (segments : List Segment) : Prop where
  texts : ∀ s, .text s ∈ segments → s ≠ "" ∧ '\x7b' ∉ s.toList
  names : ∀ s, .name s ∈ segments → Text.Trimmed s.toList
  apart : segments.IsChain fun a b => a.name?.isSome = true ∨ b.name?.isSome = true

/-- The text of segments with placeholders in the places of the names. -/
def restore : List Part → List Segment → List Char
  | _, [] => []
  | parts, .text s :: segments => s.toList ++ restore parts segments
  | p :: parts, .name _ :: segments => p.braced ++ restore parts segments
  | [], .name s :: segments => s.toList ++ restore [] segments

variable {segments : List Segment} {p : Part}

theorem textSegment_cases (cs : List Char) :
    cs = [] ∧ textSegment cs = [] ∨ cs ≠ [] ∧ textSegment cs = [.text (String.ofList cs)] := by
  cases cs with
  | nil => exact .inl ⟨rfl, rfl⟩
  | cons c cs => exact .inr ⟨List.cons_ne_nil c cs, rfl⟩

theorem tidy_textSegment (plain : '\x7b' ∉ cs) : Tidy (textSegment cs) := by
  rcases textSegment_cases cs with ⟨-, same⟩ | ⟨filled, same⟩ <;> rw [same]
  · exact ⟨nofun, nofun, .nil⟩
  · refine ⟨fun s member => ?_, fun s member => by simp at member, .singleton _⟩
    obtain rfl : s = String.ofList cs := by simpa using member
    exact ⟨by simpa using filled, by simpa using plain⟩

theorem Tidy.name (tidy : Tidy segments) {s : String} (trimmed : Text.Trimmed s.toList) :
    Tidy (.name s :: segments) where
  texts t member := tidy.texts t (by simpa using member)
  names t member := by
    rcases List.mem_cons.1 member with same | later
    · cases same
      exact trimmed
    · exact tidy.names t later
  apart := tidy.apart.cons fun _ _ => .inl rfl

theorem Tidy.text {s : String} (tidy : Tidy (.name s :: segments)) (plain : '\x7b' ∉ cs) :
    Tidy (textSegment cs ++ .name s :: segments) where
  texts t member := (List.mem_append.1 member).elim ((tidy_textSegment plain).texts t)
    (tidy.texts t)
  names t member := (List.mem_append.1 member).elim ((tidy_textSegment plain).names t)
    (tidy.names t)
  apart := by
    refine (tidy_textSegment plain).apart.append tidy.apart fun a _ b first => .inr ?_
    cases first
    rfl

theorem trimmed_of_not_blank (named : ¬ p.Blank) :
    Text.Trimmed (String.ofList (Text.trimChars p.inside)).toList := by
  rw [String.toList_ofList]
  exact Text.trimmed_trimChars (mt Text.trimChars_eq_nil_iff.1 named)

theorem tidy_segments (plain : ∀ p ∈ parts, '\x7b' ∉ p.before) (named : ∀ p ∈ parts, ¬ p.Blank)
    (last : '\x7b' ∉ cs) : Tidy (parts.flatMap Part.segments ++ textSegment cs) := by
  induction parts with
  | nil => exact tidy_textSegment last
  | cons p parts ih =>
      obtain ⟨plain, plains⟩ := List.forall_mem_cons.1 plain
      obtain ⟨named, others⟩ := List.forall_mem_cons.1 named
      have tidy := ((ih plains others).name (trimmed_of_not_blank named)).text plain
      simpa [Part.segments] using tidy

theorem filterMap_textSegment (cs : List Char) : (textSegment cs).filterMap Segment.name? = [] := by
  rcases textSegment_cases cs with ⟨-, same⟩ | ⟨-, same⟩ <;> rw [same] <;> rfl

theorem forall₂_names (named : ∀ p ∈ parts, ¬ p.Blank) (cs : List Char) :
    List.Forall₂ Part.Names parts
      ((parts.flatMap Part.segments ++ textSegment cs).filterMap Segment.name?) := by
  induction parts with
  | nil =>
      rw [List.flatMap_nil, List.nil_append, filterMap_textSegment]
      exact .nil
  | cons p parts ih =>
      obtain ⟨named, others⟩ := List.forall_mem_cons.1 named
      have own : p.Names (String.ofList (Text.trimChars p.inside)) := by
        refine ⟨trimmed_of_not_blank named, ?_⟩
        rw [String.toList_ofList]
        exact Text.exists_append_trimChars p.inside
      rw [List.filterMap_append, filterMap_textSegment, List.append_nil] at ih ⊢
      simpa [Part.segments, filterMap_textSegment, Segment.name?] using ⟨own, ih others⟩

theorem restore_textSegment (cs : List Char) (parts : List Part) (segments : List Segment) :
    restore parts (textSegment cs ++ segments) = cs ++ restore parts segments := by
  rcases textSegment_cases cs with ⟨empty, same⟩ | ⟨-, same⟩ <;> rw [same]
  · rw [empty]
    rfl
  · cases parts <;> simp [restore]

theorem restore_segments (parts : List Part) (cs : List Char) :
    restore parts (parts.flatMap Part.segments ++ textSegment cs) =
      parts.flatMap Part.source ++ cs := by
  induction parts with
  | nil => simpa [restore] using restore_textSegment cs [] []
  | cons p parts ih =>
      rw [List.flatMap_cons, List.append_assoc, Part.segments, List.append_assoc,
        restore_textSegment, List.singleton_append, restore, ih]
      simp [Part.source]

/-- A template has placeholders, from left to right, and a rest.  If a placeholder is blank it is
refused, which comes before the fault of a `{` that no `}` follows.  Without a fault its segments
are tidy, they name what the placeholders name, and nothing of the template is lost. -/
theorem segments_exact (template : String) :
    (∃ parts tail, Scans template.toList parts tail) ∧
    ∀ parts tail, Scans template.toList parts tail →
      ((∃ p ∈ parts, p.Blank) → Template.segments template = .error (.cannotReduce "\x7b\x7d")) ∧
      ((∀ p ∈ parts, ¬ p.Blank) →
        (∀ before inside, tail = .unclosed before inside →
          Template.segments template = .error (.neverClosed "\x7b")) ∧
        ∀ cs, tail = .text cs → ∃ segments, Template.segments template = .ok segments ∧
          Tidy segments ∧ List.Forall₂ Part.Names parts (segments.filterMap Segment.name?) ∧
          restore parts segments = template.toList) := by
  refine ⟨exists_scans _, fun parts tail scans => ⟨scans.split_blank, fun named => ⟨?_, ?_⟩⟩⟩
  · rintro before inside rfl
    exact scans.split_named named
  · rintro cs rfl
    obtain ⟨plain, last⟩ := scans.plain
    refine ⟨_, scans.split_named named, tidy_segments plain named (last cs rfl),
      forall₂_names named cs, ?_⟩
    rw [restore_segments]
    exact scans.source

/-- A stray `}` is text, a `{` in a placeholder belongs to the name, and a blank placeholder is
found before a `{` that is not closed. -/
example :
    Template.segments "a\x7d\x7bx\x7d\x7b y\x7b\x7d" =
      .ok [.text "a\x7d", .name "x", .name "y\x7b"] ∧
      Template.segments "a\x7bx" = .error (.neverClosed "\x7b") ∧
      Template.segments "a\x7b \x7db\x7bx" = .error (.cannotReduce "\x7b\x7d") := by
  decide +kernel

end Template

end LineScript

import LineScript.Proofs.Lexeme.Spelling
import Mathlib.Computability.Language

/-!
# The patterns of lexemes

The texts that become a lexeme or are skipped, as regular languages: a pattern for each way in which
lexemes are written, one for blanks and two for comments.  At every place of a script the pattern
that takes the longest text has it, and a reserved word is no name (`Pattern.Takes`).  Where no
pattern takes anything, the script is given up with what can still begin a lexeme (`Unmatched`).
-/

namespace LineScript.Lexeme

open Number
open scoped Computability

/-!
## Languages
-/

def one (p : Char → Bool) : Language Char :=
  {text | ∃ c, p c = true ∧ text = [c]}

def exactly (text : List Char) : Language Char :=
  {text}

def several (p : Char → Bool) : Language Char :=
  one p * (one p)∗

/-- Between the quotes of a string: a backslash takes any character on its line with it. -/
def stringBody : Language Char :=
  (one (fun c => c ≠ '"' && c ≠ '\\' && c ≠ '\n') + one (· = '\\') * one (· ≠ '\n'))∗

def quotedText : Language Char :=
  exactly ['"'] * stringBody * exactly ['"']

def word : Language Char :=
  one isWordStart * (one isWordChar)∗

/-- Between the ends of a block comment: a star takes any character but a slash with it. -/
def commentBody : Language Char :=
  (one (· ≠ '*') + one (· = '*') * one (· ≠ '/'))∗

section Language

variable {p q : Char → Bool} {text : List Char} {l : Language Char}

theorem mem_one : text ∈ one p ↔ ∃ c, p c = true ∧ text = [c] :=
  Iff.rfl

theorem mem_exactly {t : List Char} : text ∈ exactly t ↔ text = t :=
  Iff.rfl

theorem star_cons {t rest : List Char} (head : t ∈ l) (tail : rest ∈ l∗) :
    t ++ rest ∈ l∗ := by
  obtain ⟨parts, rfl, all⟩ := Language.mem_kstar.1 tail
  exact Language.mem_kstar.2 ⟨t :: parts, rfl, List.forall_mem_cons.2 ⟨head, all⟩⟩

@[elab_as_elim]
theorem star_induction {motive : List Char → Prop} (mem : text ∈ l∗) (nil : motive [])
    (cons : ∀ first ∈ l, ∀ rest, motive rest → motive (first ++ rest)) : motive text := by
  obtain ⟨parts, rfl, all⟩ := Language.mem_kstar.1 mem
  clear mem
  induction parts with
  | nil => exact nil
  | cons first parts ih =>
      rw [List.forall_mem_cons] at all
      exact cons first all.1 _ (ih all.2)

theorem mem_star_one : text ∈ (one p)∗ ↔ ∀ c ∈ text, p c = true := by
  constructor
  · intro mem
    refine star_induction mem nofun ?_
    rintro _ ⟨d, inClass, rfl⟩ rest all c member
    rcases List.mem_cons.1 member with rfl | member
    · exact inClass
    · exact all c member
  · intro all
    induction text with
    | nil => exact Language.nil_mem_kstar _
    | cons c text ih =>
        rw [List.forall_mem_cons] at all
        exact star_cons (t := [c]) ⟨c, all.1, rfl⟩ (ih all.2)

theorem mem_one_mul : text ∈ one p * l ↔ ∃ c rest, p c = true ∧ rest ∈ l ∧ text = c :: rest := by
  rw [Language.mem_mul]
  constructor
  · rintro ⟨_, ⟨c, inClass, rfl⟩, rest, mem, rfl⟩
    exact ⟨c, rest, inClass, mem, rfl⟩
  · rintro ⟨c, rest, inClass, mem, rfl⟩
    exact ⟨[c], ⟨c, inClass, rfl⟩, rest, mem, rfl⟩

theorem mem_exactly_mul {t : List Char} : text ∈ exactly t * l ↔ ∃ rest ∈ l, text = t ++ rest := by
  rw [Language.mem_mul]
  constructor
  · rintro ⟨_, rfl, rest, mem, rfl⟩
    exact ⟨rest, mem, rfl⟩
  · rintro ⟨rest, mem, rfl⟩
    exact ⟨t, rfl, rest, mem, rfl⟩

theorem mem_one_mul_star : text ∈ one p * (one q)∗ ↔
    ∃ c rest, p c = true ∧ (∀ d ∈ rest, q d = true) ∧ text = c :: rest := by
  simp only [mem_one_mul, mem_star_one]

theorem mem_several : text ∈ several p ↔ text ≠ [] ∧ ∀ c ∈ text, p c = true := by
  rw [several, mem_one_mul_star]
  constructor
  · rintro ⟨c, rest, inClass, all, rfl⟩
    exact ⟨by simp, List.forall_mem_cons.2 ⟨inClass, all⟩⟩
  · rintro ⟨filled, all⟩
    obtain ⟨c, rest, rfl⟩ := List.exists_cons_of_ne_nil filled
    rw [List.forall_mem_cons] at all
    exact ⟨c, rest, all.1, all.2, rfl⟩

theorem mem_quotedText : text ∈ quotedText ↔ ∃ body ∈ stringBody, text = '"' ::
    (body ++ ['"']) := by
  rw [quotedText, mul_assoc, mem_exactly_mul]
  constructor
  · rintro ⟨_, ⟨body, mem, _, rfl, rfl⟩, rfl⟩
    exact ⟨body, mem, rfl⟩
  · rintro ⟨body, mem, rfl⟩
    exact ⟨_, Language.append_mem_mul mem (mem_exactly.2 rfl), rfl⟩

end Language

/-!
## Patterns
-/

inductive Pattern where
  | reserved
  | pair
  | single
  | float
  | integer
  | string
  | template
  | name
  | label
  | lineComment
  | blockComment
  | blank
  deriving DecidableEq

inductive Reading where
  | lexeme (l : Lexeme)
  | skipped
  | refused

def Reading.ofOption : Option Lexeme → Reading
  | some l => .lexeme l
  | none => .refused

namespace Pattern

def language : Pattern → Language Char
  | .reserved => {text | (Lexeme.reserved.lookup (String.ofList text)).isSome = true}
  | .pair => {text | ∃ c d, (pairs.lookup (c, d)).isSome = true ∧ text = [c, d]}
  | .single => one fun c => (singles.lookup c).isSome
  | .float => several isDigit * exactly ['.'] * several isDigit
  | .integer => several isDigit
  | .string => quotedText
  | .template => exactly ['f'] * quotedText
  | .name => word
  | .label => exactly ['@'] * word
  | .lineComment => exactly ['/', '/'] * (one inLineComment)∗
  | .blockComment => exactly ['/', '*'] * commentBody * exactly ['*', '/']
  | .blank => several isSpace

def decimal (text : List Char) : Float :=
  let whole := text.takeWhile isDigit
  let fraction := (text.dropWhile isDigit).tail
  roundDecimal (natOfDigits (whole ++ fraction)) (-fraction.length)

/-- What a text becomes that the pattern takes: an integer may be too large, and an
escape unknown. -/
def reading : Pattern → List Char → Reading
  | .reserved, text => .ofOption (Lexeme.reserved.lookup (String.ofList text))
  | .pair, [c, d] => .ofOption (pairs.lookup (c, d))
  | .single, [c] => .ofOption (singles.lookup c)
  | .float, text => .lexeme (.float (decimal text))
  | .integer, text => .ofOption (integer? text)
  | .string, text => .ofOption ((unescaped? text.tail.dropLast).map .string)
  | .template, text => .ofOption ((unescaped? (text.drop 2).dropLast).map .template)
  | .name, text => .lexeme (.name (String.ofList text))
  | .label, text => .lexeme (.label (String.ofList text.tail))
  | .lineComment, _ => .skipped
  | .blockComment, _ => .skipped
  | .blank, _ => .skipped
  | .pair, _ => .refused
  | .single, _ => .refused

/-- At the start of `cs` the pattern takes `text`: no pattern takes more, and none takes as much,
unless the text is a reserved word, which could be a name. -/
structure Takes (p : Pattern) (text cs : List Char) : Prop where
  split : text <+: cs
  matched : text ∈ p.language
  longest : ∀ (q : Pattern) (t : List Char), t <+: cs → t ∈ q.language → t.length ≤ text.length
  foremost : ∀ q : Pattern, text ∈ q.language → q = p ∨ p = .reserved ∧ q = .name

variable {p q : Pattern} {text text' cs : List Char}

theorem Takes.unique (takes : p.Takes text cs) (takes' : q.Takes text' cs) : p = q ∧
    text = text' := by
  have short := takes.longest q text' takes'.split takes'.matched
  have short' := takes'.longest p text takes.split takes.matched
  have same : text = text' :=
    (List.prefix_of_prefix_length_le takes.split takes'.split short').eq_of_length
      (Nat.le_antisymm short' short)
  subst same
  refine ⟨?_, rfl⟩
  rcases takes.foremost q takes'.matched with rfl | ⟨rfl, rfl⟩
  · rfl
  · rcases takes'.foremost .reserved takes.matched with same | ⟨other, -⟩
    · exact same
    · cases other

end Pattern

def Viable (text : List Char) : Prop :=
  ∃ (p : Pattern) (more : List Char), text ++ more ∈ p.language

/-- No pattern takes anything at the start of `cs`, and `text` is as much of it as some pattern
could still begin with, or the first character. -/
structure Unmatched (text cs : List Char) : Prop where
  split : text <+: cs
  filled : text ≠ []
  nothing : ∀ (p : Pattern) (t : List Char), t <+: cs → t ∉ p.language
  begun : Viable text ∨ text.length = 1
  farthest : ∀ t, t <+: cs → Viable t → t.length ≤ text.length

/-- The script is given up at the start of `cs`, with the text that is to blame. -/
def Stuck (text cs : List Char) : Prop :=
  (∃ p : Pattern, p.Takes text cs ∧ p.reading text = .refused) ∨ Unmatched text cs

/-!
## Where patterns begin
-/

inductive Initial where
  | blank
  | digit
  | quote
  | letter
  | at
  | symbol
  deriving DecidableEq

def initial (c : Char) : Initial :=
  if isSpace c then .blank
  else if isDigit c then .digit
  else if c = '"' then .quote
  else if isWordStart c then .letter
  else if c = '@' then .at
  else .symbol

def Pattern.initial : Pattern → Initial
  | .reserved | .name | .template => .letter
  | .pair | .single | .lineComment | .blockComment => .symbol
  | .float | .integer => .digit
  | .string => .quote
  | .label => .at
  | .blank => .blank

theorem initial_of_isSpace {c : Char} (space : isSpace c = true) : initial c = .blank :=
  if_pos space

theorem initial_of_isDigit {c : Char} (digit : isDigit c = true) : initial c = .digit := by
  have notSpace := not_isSpace digit (by decide)
  simp [initial, notSpace, digit]

theorem initial_of_isWordStart {c : Char} (start : isWordStart c = true) : initial c = .letter := by
  have notSpace := not_isSpace start (by decide)
  have notDigit := not_isDigit_of_isWordStart start
  have notQuote : c ≠ '"' := by
    rintro rfl
    cases start
  simp [initial, notSpace, notDigit, notQuote, start]

theorem key_of_lookup {κ : Type} [BEq κ] [LawfulBEq κ] {entries : List (κ × Lexeme)} {P : κ → Prop}
    (all : ∀ entry ∈ entries, P entry.1) {key : κ} (found : (entries.lookup key).isSome = true) :
    P key := by
  obtain ⟨l, known⟩ := Option.isSome_iff_exists.1 found
  exact all (key, l) (mem_of_lookup known)

theorem initial_of_single {c : Char} (found : (singles.lookup c).isSome = true) :
    initial c = .symbol :=
  key_of_lookup (P := fun c => initial c = .symbol) (by decide) found

theorem initial_of_pair {c d : Char} (found : (pairs.lookup (c, d)).isSome = true) :
    initial c = .symbol :=
  key_of_lookup (P := fun key : Char × Char => initial key.1 = .symbol) (by decide) found

namespace Pattern

variable {q : Pattern} {text : List Char}

theorem mem_float : text ∈ language .float ↔ ∃ whole ∈ several isDigit,
    ∃ fraction ∈ several isDigit,
    text = whole ++ '.' :: fraction := by
  rw [language, mul_assoc, Language.mem_mul]
  simp only [mem_exactly_mul]
  constructor
  · rintro ⟨whole, digits, _, ⟨fraction, digits', rfl⟩, rfl⟩
    exact ⟨whole, digits, fraction, digits', rfl⟩
  · rintro ⟨whole, digits, fraction, digits', rfl⟩
    exact ⟨whole, digits, _, ⟨fraction, digits', rfl⟩, rfl⟩

theorem mem_string : text ∈ language .string ↔ ∃ body ∈ stringBody, text = '"' :: (body ++ ['"']) :=
  mem_quotedText

theorem mem_template : text ∈ language .template ↔
    ∃ body ∈ stringBody, text = 'f' :: '"' :: (body ++ ['"']) := by
  simp only [language, mem_exactly_mul, mem_quotedText]
  constructor
  · rintro ⟨_, ⟨body, mem, rfl⟩, rfl⟩
    exact ⟨body, mem, rfl⟩
  · rintro ⟨body, mem, rfl⟩
    exact ⟨_, ⟨body, mem, rfl⟩, rfl⟩

theorem mem_name : text ∈ language .name ↔
    ∃ c cs, isWordStart c = true ∧ (∀ d ∈ cs, isWordChar d = true) ∧ text = c :: cs :=
  mem_one_mul_star

theorem mem_label : text ∈ language .label ↔
    ∃ c cs, isWordStart c = true ∧ (∀ d ∈ cs, isWordChar d = true) ∧ text = '@' :: c :: cs := by
  simp only [language, mem_exactly_mul, word, mem_one_mul_star]
  constructor
  · rintro ⟨_, ⟨c, cs, start, all, rfl⟩, rfl⟩
    exact ⟨c, cs, start, all, rfl⟩
  · rintro ⟨c, cs, start, all, rfl⟩
    exact ⟨_, ⟨c, cs, start, all, rfl⟩, rfl⟩

theorem mem_lineComment : text ∈ language .lineComment ↔
    ∃ cs, (∀ d ∈ cs, inLineComment d = true) ∧ text = '/' :: '/' :: cs := by
  simp only [language, mem_exactly_mul, mem_star_one]
  rfl

theorem mem_blockComment : text ∈ language .blockComment ↔
    ∃ body ∈ commentBody, text = '/' :: '*' :: (body ++ ['*', '/']) := by
  rw [language, mul_assoc, mem_exactly_mul]
  constructor
  · rintro ⟨_, ⟨body, mem, _, rfl, rfl⟩, rfl⟩
    exact ⟨body, mem, rfl⟩
  · rintro ⟨body, mem, rfl⟩
    exact ⟨_, Language.append_mem_mul mem (mem_exactly.2 rfl), rfl⟩

theorem mem_single : text ∈ language .single ↔
    ∃ c, (singles.lookup c).isSome = true ∧ text = [c] :=
  mem_one

theorem mem_pair : text ∈ language .pair ↔
    ∃ c d, (pairs.lookup (c, d)).isSome = true ∧ text = [c, d] :=
  Iff.rfl

theorem mem_name_of_reserved (mem : text ∈ language .reserved) : text ∈ language .name := by
  have found : (Lexeme.reserved.lookup (String.ofList text)).isSome = true := mem
  obtain ⟨l, known⟩ := Option.isSome_iff_exists.1 found
  obtain ⟨c, cs, letters, start, all⟩ := letters_of_reserved (mem_of_lookup known)
  rw [String.toList_ofList] at letters
  exact mem_name.2 ⟨c, cs, start, all, letters⟩

/-- A pattern takes no empty text, and the first character tells which patterns can take it. -/
theorem exists_initial (mem : text ∈ q.language) :
    ∃ c cs, text = c :: cs ∧ Lexeme.initial c = q.initial := by
  have digits (cs rest : List Char) (digits : cs ∈ several isDigit) :
      ∃ c more, cs ++ rest = c :: more ∧ Lexeme.initial c = .digit := by
    obtain ⟨filled, all⟩ := mem_several.1 digits
    obtain ⟨c, cs, rfl⟩ := List.exists_cons_of_ne_nil filled
    exact ⟨c, cs ++ rest, rfl, initial_of_isDigit (all c (by simp))⟩
  have word (mem : text ∈ language .name) : ∃ c cs, text = c :: cs ∧
    Lexeme.initial c = .letter := by
    obtain ⟨c, cs, start, -, rfl⟩ := mem_name.1 mem
    exact ⟨c, cs, rfl, initial_of_isWordStart start⟩
  cases q with
  | reserved => exact word (mem_name_of_reserved mem)
  | name => exact word mem
  | pair =>
      obtain ⟨c, d, found, rfl⟩ := mem_pair.1 mem
      exact ⟨c, [d], rfl, initial_of_pair found⟩
  | single =>
      obtain ⟨c, found, rfl⟩ := mem_single.1 mem
      exact ⟨c, [], rfl, initial_of_single found⟩
  | float =>
      obtain ⟨whole, mem', fraction, -, rfl⟩ := mem_float.1 mem
      exact digits whole _ mem'
  | integer =>
      rw [← text.append_nil]
      exact digits text [] mem
  | string =>
      obtain ⟨body, -, rfl⟩ := mem_string.1 mem
      exact ⟨_, _, rfl, rfl⟩
  | template =>
      obtain ⟨body, -, rfl⟩ := mem_template.1 mem
      exact ⟨_, _, rfl, rfl⟩
  | label =>
      obtain ⟨c, cs, -, -, rfl⟩ := mem_label.1 mem
      exact ⟨_, _, rfl, rfl⟩
  | lineComment =>
      obtain ⟨cs, -, rfl⟩ := mem_lineComment.1 mem
      exact ⟨_, _, rfl, rfl⟩
  | blockComment =>
      obtain ⟨body, -, rfl⟩ := mem_blockComment.1 mem
      exact ⟨_, _, rfl, rfl⟩
  | blank =>
      obtain ⟨filled, all⟩ := mem_several.1 mem
      obtain ⟨c, cs, rfl⟩ := List.exists_cons_of_ne_nil filled
      exact ⟨c, cs, rfl, initial_of_isSpace (all c (by simp))⟩

end Pattern

end LineScript.Lexeme

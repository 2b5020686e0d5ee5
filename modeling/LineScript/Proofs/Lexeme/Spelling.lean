import LineScript.Lexeme.Scan

/-!
# The spelling of lexemes

How each lexeme is written in a script.  A scan of the spelling, followed by a blank, a line break
or the end of the text, takes exactly the lexeme (`Lexeme.scan_spelling`), and a text that starts
with it is read as the lexeme and what follows (`Lexeme.lexFrom_spelling`).
-/

namespace LineScript.Lexeme

open Number

def escape (c : Char) : List Char :=
  if c = '\n' then ['\\', 'n']
  else if c = '\t' then ['\\', 't']
  else if c = '"' then ['\\', '"']
  else if c = '\\' then ['\\', '\\']
  else [c]

def quoted (s : String) : List Char :=
  '"' :: (s.toList.flatMap escape ++ ['"'])

def isName (s : String) : Bool :=
  (match s.toList with
    | [] => false
    | c :: cs => isWordStart c && cs.all isWordChar) &&
    (reserved.lookup s).isNone

def spelling : Lexeme → List Char
  | .float _ => []
  | .integer n => Nat.toDigits 10 n.toInt.toNat
  | .string s => quoted s
  | .template s => 'f' :: quoted s
  | .bool true => "true".toList
  | .bool false => "false".toList
  | .null => "null".toList
  | .type t => t.name.toList
  | .keyword k => k.word.toList
  | .name s => s.toList
  | .label s => '@' :: s.toList
  | .operator op => op.symbol.toList
  | .openParen => ['(']
  | .closeParen => [')']
  | .openBrace => ['\x7b']
  | .closeBrace => ['\x7d']
  | .comma => [',']
  | .semicolon => [';']
  | .newline => ['\n']

/-- The lexemes that a spelling stands for.  A `-` is always scanned as a difference, and there is
no word for the types of `null` and of functions. -/
def Spelled : Lexeme → Prop
  | .float _ => False
  | .integer n => 0 ≤ n.toInt
  | .type t => t ≠ .null ∧ t ≠ .function
  | .name s => isName s = true
  | .label s =>
      match s.toList with
      | [] => False
      | c :: cs => isWordStart c = true ∧ cs.all isWordChar = true
  | .operator op => op ≠ .negate
  | _ => True

def Parted (rest : List Char) : Prop :=
  ∀ c, rest.head? = some c → c = ' ' ∨ c = '\n'

theorem parted_nil : Parted [] :=
  nofun

theorem parted_cases {rest : List Char} (parted : Parted rest) :
    rest = [] ∨ (∃ more, rest = ' ' :: more) ∨ ∃ more, rest = '\n' :: more := by
  cases rest with
  | nil => exact .inl rfl
  | cons c more =>
      rcases parted c rfl with rfl | rfl
      · exact .inr (.inl ⟨more, rfl⟩)
      · exact .inr (.inr ⟨more, rfl⟩)

/-!
## Words
-/

theorem takeWhile_append {p : Char → Bool} {cs rest : List Char}
    (all : ∀ c ∈ cs, p c = true) (stop : ∀ c, rest.head? = some c → p c = false) :
    (cs ++ rest).takeWhile p = cs ∧ (cs ++ rest).dropWhile p = rest := by
  rw [List.takeWhile_append_of_pos all, List.dropWhile_append_of_pos all]
  cases rest with
  | nil => simp
  | cons c more => simp [stop c rfl]

theorem isWordChar_of_parted {rest : List Char} (parted : Parted rest) :
    ∀ c, rest.head? = some c → isWordChar c = false := by
  intro c hc
  rcases parted c hc with rfl | rfl <;> decide

theorem isDigit_of_parted {rest : List Char} (parted : Parted rest) :
    ∀ c, rest.head? = some c → isDigit c = false := by
  intro c hc
  rcases parted c hc with rfl | rfl <;> decide

theorem isWordChar_of_isWordStart {c : Char} (h : isWordStart c = true) : isWordChar c = true := by
  simp [isWordChar, h]

theorem not_isSpace {p : Char → Bool} {c : Char} (inClass : p c = true)
    (none : (p ' ' || p '\t' || p '\r' || p '\x0c') = false) : isSpace c = false := by
  rw [Bool.eq_false_iff]
  intro space
  simp only [isSpace, Bool.or_eq_true, decide_eq_true_eq] at space
  simp only [Bool.or_eq_false_iff] at none
  rcases space with ((rfl | rfl) | rfl) | rfl <;> simp_all

theorem not_isDigit_of_isWordStart {c : Char} (start : isWordStart c = true) :
    isDigit c = false := by
  have range : ('a' ≤ c ∧ c ≤ 'z') ∨ ('A' ≤ c ∧ c ≤ 'Z') ∨ c = '_' := by
    simpa [isWordStart, isLetter, or_assoc] using start
  rw [Bool.eq_false_iff]
  intro digit
  simp only [isDigit, Bool.and_eq_true, decide_eq_true_eq] at digit
  rcases range with range | range | rfl
  · exact absurd (Char.le_trans range.1 digit.2) (by decide)
  · exact absurd (Char.le_trans range.1 digit.2) (by decide)
  · exact absurd digit.2 (by decide)

theorem scan_of_isWordStart {c : Char} {cs : List Char} (start : isWordStart c = true)
    (plain : cs.head? ≠ some '"') : scan c cs = scanWord (c :: cs) := by
  have notSpace := not_isSpace start (by decide)
  have notDigit := not_isDigit_of_isWordStart start
  have notQuote : c ≠ '"' := by
    rintro rfl
    cases start
  simp [scan, notSpace, notDigit, notQuote, plain, start]

theorem scan_word {c : Char} {cs rest : List Char} (start : isWordStart c = true)
    (word : ∀ d ∈ cs, isWordChar d = true) (parted : Parted rest) :
    scan c (cs ++ rest) = .lexeme (ofWord (String.ofList (c :: cs))) rest := by
  have plain : (cs ++ rest).head? ≠ some '"' := by
    intro h
    cases cs with
    | nil => rcases parted _ h with h | h <;> cases h
    | cons d ds =>
        obtain rfl : d = '"' := by simpa using h
        exact absurd (word '"' (by simp)) (by decide)
  have all : ∀ d ∈ c :: cs, isWordChar d = true := by
    intro d hd
    rcases List.mem_cons.1 hd with rfl | hd
    · exact isWordChar_of_isWordStart start
    · exact word d hd
  obtain ⟨taken, dropped⟩ := takeWhile_append all (isWordChar_of_parted parted)
  rw [scan_of_isWordStart start plain, scanWord, ← List.cons_append, taken, dropped]

/-!
## Numbers
-/

theorem natOfDigits_toDigits (n : Nat) : natOfDigits (Nat.toDigits 10 n) = n := by
  have value := Nat.ofDigitChars_ten_toDigits (n := n)
  rw [Nat.ofDigitChars_eq_foldl] at value
  exact value

theorem isDigit_of_mem_toDigits {n : Nat} {c : Char} (h : c ∈ Nat.toDigits 10 n) :
    isDigit c = true := by
  have digit := Nat.isDigit_of_mem_toDigits (by decide) (by decide) h
  simpa [Char.isDigit, isDigit, Char.le_def] using digit

theorem narrow?_toInt (n : Int64) : narrow? n.toInt = some n := by
  have low := Int64.minValue_le_toInt n
  have high := Int64.toInt_le n
  simp only [narrow?]
  rw [if_pos ⟨by simpa using low, by simpa using high⟩, Int64.ofInt_toInt]

theorem scan_integer {n : Int64} {c : Char} {cs rest : List Char} (nonneg : 0 ≤ n.toInt)
    (digits : Nat.toDigits 10 n.toInt.toNat = c :: cs) (parted : Parted rest) :
    scan c (cs ++ rest) = .lexeme (.integer n) rest := by
  have all : ∀ d ∈ c :: cs, isDigit d = true := by
    intro d hd
    rw [← digits] at hd
    exact isDigit_of_mem_toDigits hd
  have digit : isDigit c = true := all c (by simp)
  have notSpace := not_isSpace digit (by decide)
  obtain ⟨taken, dropped⟩ := takeWhile_append all (isDigit_of_parted parted)
  have value : integer? (c :: cs) = some (.integer n) := by
    rw [integer?, ← digits, natOfDigits_toDigits, Int.toNat_of_nonneg nonneg, narrow?_toInt]
    rfl
  have number : scan c (cs ++ rest) = scanNumber (c :: (cs ++ rest)) := by
    simp [scan, notSpace, digit]
  rw [number, scanNumber, ← List.cons_append, taken, dropped, value]
  rcases parted_cases parted with rfl | ⟨more, rfl⟩ | ⟨more, rfl⟩ <;> rfl

/-!
## Strings
-/

theorem quotedBody_plain {c : Char} {cs : List Char} (quote : c ≠ '"') (newline : c ≠ '\n')
    (backslash : c ≠ '\\') (more : cs ≠ []) :
    quotedBody (c :: cs) = ((c :: (quotedBody cs).1), (quotedBody cs).2) := by
  cases cs with
  | nil => exact absurd rfl more
  | cons d ds => simp [quotedBody, quote, newline, backslash]

theorem quotedBody_escaped {d : Char} {cs : List Char} (newline : d ≠ '\n') :
    quotedBody ('\\' :: d :: cs) = ('\\' :: d :: (quotedBody cs).1, (quotedBody cs).2) := by
  simp [quotedBody, newline]

theorem escape_cases (c : Char) :
    (escape c = [c] ∧ c ≠ '"' ∧ c ≠ '\n' ∧ c ≠ '\\') ∨
      ∃ d, escape c = ['\\', d] ∧ d ≠ '\n' ∧ escaped? d = some c := by
  unfold escape
  split
  · rename_i h
    exact .inr ⟨'n', rfl, by decide, by rw [h]; rfl⟩
  split
  · rename_i h
    exact .inr ⟨'t', rfl, by decide, by rw [h]; rfl⟩
  split
  · rename_i h
    exact .inr ⟨'"', rfl, by decide, by rw [h]; rfl⟩
  split
  · rename_i h
    exact .inr ⟨'\\', rfl, by decide, by rw [h]; rfl⟩
  · rename_i newline _ quote backslash
    exact .inl ⟨rfl, quote, newline, backslash⟩

theorem quotedBody_escape (cs rest : List Char) :
    quotedBody (cs.flatMap escape ++ '"' :: rest) = (cs.flatMap escape, some rest) := by
  induction cs with
  | nil => cases rest <;> rfl
  | cons c cs ih =>
      rw [List.flatMap_cons, List.append_assoc]
      rcases escape_cases c with ⟨same, quote, newline, backslash⟩ | ⟨d, short, newline, -⟩
      · rw [same, List.singleton_append, quotedBody_plain quote newline backslash (by simp), ih]
        rfl
      · rw [short, List.cons_append, List.cons_append, List.nil_append,
          quotedBody_escaped newline, ih]
        rfl

theorem plainBody?_plain {c : Char} {cs : List Char} (backslash : c ≠ '\\') :
    plainBody? (c :: cs) = (plainBody? cs).map (c :: ·) := by
  cases cs with
  | nil => simp [plainBody?, backslash]
  | cons d ds => simp [plainBody?, backslash]

theorem plainBody?_escape (cs : List Char) : plainBody? (cs.flatMap escape) = some cs := by
  induction cs with
  | nil => rfl
  | cons c cs ih =>
      rw [List.flatMap_cons]
      rcases escape_cases c with ⟨same, -, -, backslash⟩ | ⟨d, short, -, value⟩
      · rw [same, List.singleton_append, plainBody?_plain backslash, ih]
        rfl
      · rw [short, List.cons_append, List.cons_append, List.nil_append, plainBody?, if_pos rfl,
          value, ih]
        rfl

theorem scan_string (cs : List Char) : scan '"' cs = scanString cs := by
  rw [scan, if_neg (by decide), if_neg (by decide), if_pos rfl]

theorem scan_template (cs : List Char) : scan 'f' ('"' :: cs) = scanTemplate cs := by
  rw [scan, if_neg (by decide), if_neg (by decide), if_neg (by decide)]
  exact if_pos rfl

theorem unescaped?_escape (s : String) : unescaped? (s.toList.flatMap escape) = some s := by
  simp [unescaped?, plainBody?_escape]

/-!
## All lexemes
-/

theorem mem_of_lookup {κ : Type} [BEq κ] [LawfulBEq κ] {entries : List (κ × Lexeme)} {key : κ}
    {l : Lexeme} (found : entries.lookup key = some l) : (key, l) ∈ entries := by
  obtain ⟨before, after, rfl, -⟩ := List.lookup_eq_some_iff.1 found
  simp

theorem letters_of_reserved {w : String} {l : Lexeme} (known : (w, l) ∈ reserved) :
    ∃ c cs, w.toList = c :: cs ∧ isWordStart c = true ∧ ∀ d ∈ cs, isWordChar d = true := by
  have all : ∀ entry ∈ reserved, isWordStart (entry.1.toList.headD ' ') = true ∧
      entry.1.toList.all isWordChar = true := by
    decide +kernel
  obtain ⟨start, word⟩ := all (w, l) known
  cases letters : w.toList with
  | nil =>
      rw [letters] at start
      cases start
  | cons c cs =>
      rw [letters] at start word
      exact ⟨c, cs, rfl, start, (List.forall_mem_cons.1 (List.all_eq_true.1 word)).2⟩

private theorem scan_reserved {w : String} {l : Lexeme} {c : Char} {cs rest : List Char}
    (known : (w, l) ∈ reserved) (text : w.toList = c :: cs) (parted : Parted rest) :
    scan c (cs ++ rest) = .lexeme l rest := by
  have all : ∀ entry ∈ reserved, reserved.lookup entry.1 = some entry.2 := by decide +kernel
  obtain ⟨c, cs, letters, start, word⟩ := letters_of_reserved known
  cases letters.symm.trans text
  have value : ofWord w = l := by rw [ofWord, all (w, l) known, Option.getD_some]
  rw [scan_word start word parted, ← letters, String.ofList_toList, value]

/-- A scan takes exactly the lexeme that a text starts with. -/
theorem scan_spelling {l : Lexeme} {c : Char} {cs rest : List Char} (spelled : l.Spelled)
    (text : l.spelling = c :: cs) (parted : Parted rest) :
    scan c (cs ++ rest) = .lexeme l rest := by
  cases l with
  | float x => exact absurd spelled id
  | integer n => exact scan_integer spelled text parted
  | string s =>
      obtain ⟨rfl, rfl⟩ := List.cons.inj text
      rw [scan_string, scanString, List.append_assoc, List.singleton_append, quotedBody_escape]
      simp [unescaped?_escape, Scan.literal]
  | template s =>
      obtain ⟨rfl, rfl⟩ := List.cons.inj text
      have scanned : scan 'f' (quoted s ++ rest) =
          scanTemplate (s.toList.flatMap escape ++ ['"'] ++ rest) :=
        scan_template _
      rw [scanned, scanTemplate, List.append_assoc, List.singleton_append, quotedBody_escape]
      simp [unescaped?_escape, Scan.literal]
  | bool b =>
      cases b with
      | true => exact scan_reserved (w := "true") (by decide) text parted
      | false => exact scan_reserved (w := "false") (by decide) text parted
  | null => exact scan_reserved (w := "null") (by decide) text parted
  | type t =>
      cases t with
      | null => exact absurd rfl spelled.1
      | function => exact absurd rfl spelled.2
      | _ => exact scan_reserved (by decide) text parted
  | keyword k =>
      have all : ∀ k : Keyword, (k.word, .keyword k) ∈ reserved := by
        intro k
        cases k <;> decide
      exact scan_reserved (all k) text parted
  | name s =>
      simp only [Spelled, isName, Bool.and_eq_true] at spelled
      obtain ⟨word, free⟩ := spelled
      have letters : s.toList = c :: cs := text
      simp only [letters, Bool.and_eq_true] at word
      have value : ofWord s = .name s := by
        rw [ofWord, Option.isNone_iff_eq_none.1 free, Option.getD_none]
      rw [scan_word word.1 (List.all_eq_true.1 word.2) parted, ← letters,
        String.ofList_toList, value]
  | label s =>
      obtain ⟨rfl, letters⟩ := List.cons.inj text
      simp only [Spelled] at spelled
      cases hs : s.toList with
      | nil => simp [hs] at spelled
      | cons d ds =>
          simp only [hs] at spelled
          obtain ⟨start, word⟩ := spelled
          have all : ∀ e ∈ d :: ds, isWordChar e = true := by
            intro e he
            rcases List.mem_cons.1 he with rfl | he
            · exact isWordChar_of_isWordStart start
            · exact List.all_eq_true.1 word e he
          obtain ⟨taken, dropped⟩ := takeWhile_append all (isWordChar_of_parted parted)
          rw [hs] at letters
          have scanned : scan '@' (cs ++ rest) = scanLabel (cs ++ rest) := rfl
          rw [scanned, ← letters, List.cons_append, scanLabel]
          simp only [start, if_true]
          rw [← List.cons_append, taken, dropped, ← hs, String.ofList_toList]
  | operator op =>
      cases op with
      | negate => exact absurd rfl spelled
      | _ =>
          cases text
          rcases parted_cases parted with rfl | ⟨more, rfl⟩ | ⟨more, rfl⟩ <;> rfl
  | _ =>
      cases text
      rcases parted_cases parted with rfl | ⟨more, rfl⟩ | ⟨more, rfl⟩ <;> rfl

theorem spelling_ne_nil {l : Lexeme} (spelled : l.Spelled) : l.spelling ≠ [] := by
  cases l with
  | float x => exact absurd spelled id
  | integer n => exact Nat.toDigits_ne_nil
  | name s =>
      intro empty
      have letters : s.toList = [] := empty
      simp [Spelled, isName, letters] at spelled
  | bool b => cases b <;> decide
  | type t => cases t <;> decide
  | keyword k => cases k <;> decide
  | operator op => cases op <;> decide
  | _ =>
      intro empty
      cases empty

/-!
## Texts
-/

section Texts

variable {c : Char} {cs rest : List Char} {l : Lexeme}

theorem lexFrom_lexeme (scanned : scan c cs = .lexeme l rest) (n : Nat) :
    lexFrom n (c :: cs) = (lexFrom (n + l.newlines) rest).map fun ls => (l, n) :: ls := by
  rw [lexFrom]
  split
  · rename_i found
    rw [scanned] at found
    cases found
    cases lexFrom (n + l.newlines) rest <;> rfl
  all_goals
    rename_i found
    rw [scanned] at found
    cases found

theorem lexFrom_skip {lines : Nat} (scanned : scan c cs = .skip lines rest) (n : Nat) :
    lexFrom n (c :: cs) = lexFrom (n + lines) rest := by
  rw [lexFrom]
  split <;> simp_all only [Scan.skip.injEq, reduceCtorEq]

theorem lexFrom_refused {text : List Char} (scanned : scan c cs = .refused text) (n : Nat) :
    lexFrom n (c :: cs) = .error { cause := .unrecognized (String.ofList text), line := n } := by
  rw [lexFrom]
  split <;> simp_all only [Scan.refused.injEq, reduceCtorEq]

theorem lexFrom_spelling (spelled : l.Spelled) (parted : Parted rest) (n : Nat) :
    lexFrom n (l.spelling ++ rest) =
      (lexFrom (n + l.newlines) rest).map fun ls => (l, n) :: ls := by
  cases text : l.spelling with
  | nil => exact absurd text (spelling_ne_nil spelled)
  | cons c cs => exact lexFrom_lexeme (scan_spelling spelled text parted) n

theorem lexFrom_space (space : isSpace c = true) (n : Nat) (rest : List Char) :
    lexFrom n (c :: rest) = lexFrom n rest :=
  lexFrom_skip (if_pos space) n

theorem lexFrom_blank (n : Nat) (rest : List Char) : lexFrom n (' ' :: rest) = lexFrom n rest :=
  lexFrom_space rfl n rest

theorem lexFrom_newline (n : Nat) (rest : List Char) :
    lexFrom n ('\n' :: rest) = (lexFrom (n + 1) rest).map fun ls => (.newline, n) :: ls :=
  lexFrom_lexeme (l := .newline) (by cases rest <;> rfl) n

end Texts

end LineScript.Lexeme

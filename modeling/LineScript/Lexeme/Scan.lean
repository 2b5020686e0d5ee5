import LineScript.Lexeme
import LineScript.Number.Reading

/-!
# Scanning

At every place of a script the longest lexeme is taken.  Blanks and comments are skipped.  Scanning
stops at the first text that starts no lexeme, and at a literal that is refused: an integer that
does not fit in 64 bits or a string with an unknown escape.

The main functions are `scan`, which takes one lexeme or one piece of skipped text, and `lexemes`,
which pairs the lexemes of a script with their source lines.
-/

namespace LineScript.Lexeme

open Number

def isLetter (c : Char) : Bool :=
  ('a' ≤ c && c ≤ 'z') || ('A' ≤ c && c ≤ 'Z')

def isWordStart (c : Char) : Bool :=
  isLetter c || c = '_'

def isWordChar (c : Char) : Bool :=
  isWordStart c || isDigit c

def isSpace (c : Char) : Bool :=
  c = ' ' || c = '\t' || c = '\r' || c = '\x0c'

inductive Scan where
  | lexeme (l : Lexeme) (rest : List Char)
  | skip (newlines : Nat) (rest : List Char)
  | refused (text : List Char)
  deriving DecidableEq, Repr

def Scan.literal (text : List Char) (l? : Option Lexeme) (rest : List Char) : Scan :=
  match l? with
  | some l => .lexeme l rest
  | none => .refused text

/-!
## Strings
-/

/-- The text up to the closing quote, and what follows that quote.  A backslash takes the next
character with it.  If the string does not end on its line there is no rest, and the text is all
that was read. -/
def quotedBody : List Char → List Char × Option (List Char)
  | [] => ([], none)
  | [c] =>
      if c = '"' then ([], some [])
      else if c = '\n' then ([], none)
      else ([c], none)
  | c :: d :: rest =>
      if c = '"' then ([], some (d :: rest))
      else if c = '\n' then ([], none)
      else if c = '\\' then
        if d = '\n' then ([c], none)
        else
          let (body, tail) := quotedBody rest
          (c :: d :: body, tail)
      else
        let (body, tail) := quotedBody (d :: rest)
        (c :: body, tail)

def escaped? (c : Char) : Option Char :=
  if c = 'n' then some '\n'
  else if c = 't' then some '\t'
  else if c = '"' then some '"'
  else if c = '\\' then some '\\'
  else none

def plainBody? : List Char → Option (List Char)
  | [] => some []
  | [c] => if c = '\\' then none else some [c]
  | c :: d :: rest =>
      if c = '\\' then
        (escaped? d).bind fun e => (plainBody? rest).map (e :: ·)
      else (plainBody? (d :: rest)).map (c :: ·)

def unescaped? (body : List Char) : Option String :=
  (plainBody? body).map String.ofList

def scanString (cs : List Char) : Scan :=
  match quotedBody cs with
  | (body, some rest) => .literal ('"' :: body ++ ['"']) ((unescaped? body).map .string) rest
  | (body, none) => .refused ('"' :: body)

/-!
## Words, numbers and comments
-/

def scanWord (cs : List Char) : Scan :=
  .lexeme (ofWord (String.ofList (cs.takeWhile isWordChar))) (cs.dropWhile isWordChar)

/-- A template after its `f` and opening quote; one that never ends is the word `f` instead. -/
def scanTemplate (cs : List Char) : Scan :=
  match quotedBody cs with
  | (body, some rest) =>
      .literal ('f' :: '"' :: body ++ ['"']) ((unescaped? body).map .template) rest
  | (_, none) => scanWord ('f' :: '"' :: cs)

def scanLabel (cs : List Char) : Scan :=
  match cs with
  | [] => .refused ['@']
  | c :: _ =>
      if isWordStart c then
        .lexeme (.label (String.ofList (cs.takeWhile isWordChar))) (cs.dropWhile isWordChar)
      else .refused ['@']

def integer? (digits : List Char) : Option Lexeme :=
  (narrow? (natOfDigits digits)).map .integer

def scanNumber (cs : List Char) : Scan :=
  let whole := cs.takeWhile isDigit
  let rest := cs.dropWhile isDigit
  let integer := Scan.literal whole (integer? whole) rest
  match rest with
  | '.' :: more =>
      let fraction := more.takeWhile isDigit
      if fraction.isEmpty then integer
      else
        .lexeme (.float (roundDecimal (natOfDigits (whole ++ fraction)) (-fraction.length)))
          (more.dropWhile isDigit)
  | _ => integer

def countNewline (c : Char) : Nat :=
  if c = '\n' then 1 else 0

/-- The end of a block comment after its `/*`: the number of line breaks before it and the text
after it.  A star takes the next character with it, so of a run of stars every second one is
looked at. -/
def commentEnd? : List Char → Option (Nat × List Char)
  | [] => none
  | [_] => none
  | c :: d :: rest =>
      if c = '*' then
        if d = '/' then some (0, rest)
        else (commentEnd? rest).map fun (n, tail) => (n + countNewline d, tail)
      else (commentEnd? (d :: rest)).map fun (n, tail) => (n + countNewline c, tail)

def inLineComment (c : Char) : Bool :=
  c ≠ '\n' && c ≠ '\r'

def scanSymbol (c : Char) (cs : List Char) : Scan :=
  let single : Scan :=
    match singles.lookup c with
    | some l => .lexeme l cs
    | none => .refused [c]
  match cs with
  | [] => single
  | d :: rest =>
      match pairs.lookup (c, d) with
      | some l => .lexeme l rest
      | none => single

def scanSlash (cs : List Char) : Scan :=
  match cs with
  | '/' :: rest => .skip 0 (rest.dropWhile inLineComment)
  | '*' :: rest =>
      match commentEnd? rest with
      | some (newlines, tail) => .skip newlines tail
      | none => scanSymbol '/' cs
  | _ => scanSymbol '/' cs

/-!
## Scripts
-/

/-- The longest lexeme, or skipped text, at the start of `c :: cs`. -/
def scan (c : Char) (cs : List Char) : Scan :=
  if isSpace c then .skip 0 cs
  else if isDigit c then scanNumber (c :: cs)
  else if c = '"' then scanString cs
  else if c = 'f' && cs.head? = some '"' then scanTemplate cs.tail
  else if isWordStart c then scanWord (c :: cs)
  else if c = '@' then scanLabel cs
  else if c = '/' then scanSlash cs
  else scanSymbol c cs

def Scan.restLength : Scan → Nat
  | .lexeme _ rest => rest.length
  | .skip _ rest => rest.length
  | .refused _ => 0

private theorem length_dropWhile_le (p : Char → Bool) (cs : List Char) :
    (cs.dropWhile p).length ≤ cs.length :=
  (List.dropWhile_suffix p).length_le

private theorem restLength_literal_le (text : List Char) (l? : Option Lexeme)
    (rest : List Char) : (Scan.literal text l? rest).restLength ≤ rest.length := by
  cases l? <;> simp [Scan.literal, Scan.restLength]

theorem quotedBody_rest_le (cs body rest : List Char)
    (h : quotedBody cs = (body, some rest)) : rest.length < cs.length := by
  fun_induction quotedBody cs generalizing body <;> grind

theorem commentEnd?_rest_le (cs rest : List Char) (n : Nat)
    (h : commentEnd? cs = some (n, rest)) : rest.length < cs.length := by
  fun_induction commentEnd? cs generalizing n <;> grind [Option.map_eq_some_iff]

private theorem restLength_scanSymbol_le (c : Char) (cs : List Char) :
    (scanSymbol c cs).restLength ≤ cs.length := by
  unfold scanSymbol
  grind [Scan.restLength]

private theorem restLength_scanSlash_le (cs : List Char) :
    (scanSlash cs).restLength ≤ cs.length := by
  unfold scanSlash
  split
  · simp only [Scan.restLength, List.length_cons]
    have := length_dropWhile_le inLineComment (by assumption)
    omega
  · split
    · rename_i h
      have := commentEnd?_rest_le _ _ _ h
      simp only [Scan.restLength, List.length_cons]
      omega
    · exact restLength_scanSymbol_le _ _
  · exact restLength_scanSymbol_le _ _

private theorem restLength_scanString_le (cs : List Char) :
    (scanString cs).restLength ≤ cs.length := by
  unfold scanString
  split
  · rename_i body rest h
    have := quotedBody_rest_le _ _ _ h
    have := restLength_literal_le ('"' :: body ++ ['"']) ((unescaped? body).map .string) rest
    omega
  · simp [Scan.restLength]

private theorem restLength_scanWord_lt (c : Char) (cs : List Char) (h : isWordStart c = true) :
    (scanWord (c :: cs)).restLength ≤ cs.length := by
  have hc : isWordChar c = true := by simp [isWordChar, h]
  simp only [scanWord, Scan.restLength, List.dropWhile_cons, hc, if_true]
  exact length_dropWhile_le _ _

private theorem restLength_scanTemplate_le (cs : List Char) :
    (scanTemplate cs).restLength ≤ cs.length + 1 := by
  unfold scanTemplate
  split
  · rename_i body rest h
    have := quotedBody_rest_le _ _ _ h
    have := restLength_literal_le ('f' :: '"' :: body ++ ['"'])
      ((unescaped? body).map .template) rest
    omega
  · exact restLength_scanWord_lt _ _ (by decide)

private theorem restLength_scanLabel_le (cs : List Char) :
    (scanLabel cs).restLength ≤ cs.length := by
  unfold scanLabel
  split
  · simp [Scan.restLength]
  · split
    · exact length_dropWhile_le _ _
    · simp [Scan.restLength]

private theorem restLength_scanNumber_le (c : Char) (cs : List Char) (h : isDigit c = true) :
    (scanNumber (c :: cs)).restLength ≤ cs.length := by
  have hrest : ((c :: cs).dropWhile isDigit).length ≤ cs.length := by
    simp only [List.dropWhile_cons, h, if_true]
    exact length_dropWhile_le _ _
  simp only [scanNumber]
  split
  · rename_i more hmore
    rw [hmore] at hrest
    simp only [List.length_cons] at hrest
    split
    · have := restLength_literal_le ((c :: cs).takeWhile isDigit)
        (integer? ((c :: cs).takeWhile isDigit)) ((c :: cs).dropWhile isDigit)
      rw [hmore] at this ⊢
      simp only [List.length_cons] at this
      omega
    · have := length_dropWhile_le isDigit more
      simp only [Scan.restLength]
      omega
  · exact Nat.le_trans (restLength_literal_le _ _ _) hrest

theorem restLength_scan_le (c : Char) (cs : List Char) : (scan c cs).restLength ≤ cs.length := by
  unfold scan
  split
  · exact Nat.le_refl _
  split
  · rename_i h
    exact restLength_scanNumber_le c cs h
  split
  · exact restLength_scanString_le cs
  split
  · rename_i h
    cases cs with
    | nil => simp at h
    | cons d rest => exact restLength_scanTemplate_le rest
  split
  · rename_i h
    exact restLength_scanWord_lt c cs h
  split
  · exact restLength_scanLabel_le cs
  split
  · exact restLength_scanSlash_le cs
  · exact restLength_scanSymbol_le c cs

def newlines (l : Lexeme) : Nat :=
  if l = .newline then 1 else 0

/-- The lexemes of a text whose first character is on the given line.  A line break belongs to the
line that it ends. -/
def lexFrom (line : Nat) : List Char → Except LoadError (List (Lexeme × Nat))
  | [] => .ok []
  | c :: cs =>
      match _found : scan c cs with
      | .lexeme l rest => do
          let ls ← lexFrom (line + l.newlines) rest
          return (l, line) :: ls
      | .skip n rest => lexFrom (line + n) rest
      | .refused text => .error { cause := .unrecognized (String.ofList text), line }
termination_by cs => cs.length
decreasing_by
  all_goals
    have hle := restLength_scan_le c cs
    rw [_found] at hle
    simp only [Scan.restLength] at hle
    simp only [List.length_cons]
    omega

end Lexeme

/-- The lexemes of a script with their source lines, counted from 1. -/
def lexemes (source : String) : Except LoadError (List (Lexeme × Nat)) :=
  Lexeme.lexFrom 1 source.toList

end LineScript

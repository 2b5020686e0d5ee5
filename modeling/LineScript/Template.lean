import LineScript.Text.Blank
import LineScript.Token

/-!
# Templates

A template is a text with placeholders: names between braces.  It is split into text and names, and
expands to the sum of its pieces.  Each `{` that stands outside a placeholder is paired with the
next `}`; blanks around a name are dropped, and a blank placeholder is refused.
-/

namespace LineScript.Template

inductive Segment where
  | text (s : String)
  | name (s : String)
  deriving DecidableEq, Repr

def notOpen (c : Char) : Bool :=
  c ≠ '\x7b'

def notClose (c : Char) : Bool :=
  c ≠ '\x7d'

def textSegment (cs : List Char) : List Segment :=
  if cs.isEmpty then [] else [.text (String.ofList cs)]

private theorem length_of_dropWhile_eq_cons {p : Char → Bool} {cs rest : List Char} {c : Char}
    (h : cs.dropWhile p = c :: rest) : rest.length < cs.length := by
  have hle : (cs.dropWhile p).length ≤ cs.length := (List.dropWhile_suffix p).length_le
  rw [h, List.length_cons] at hle
  omega

/-- The segments of a template.  Of two faults the leftmost is reported. -/
def split (cs : List Char) : Except Cause (List Segment) :=
  let before := textSegment (cs.takeWhile notOpen)
  match _opened : cs.dropWhile notOpen with
  | [] => .ok before
  | _ :: after =>
      match _closed : after.dropWhile notClose with
      | [] => .error (.neverClosed "\x7b")
      | _ :: rest =>
          let name := Text.trimChars (after.takeWhile notClose)
          if name.isEmpty then .error (.cannotReduce "\x7b\x7d")
          else do
            let segments ← split rest
            return before ++ .name (String.ofList name) :: segments
termination_by cs.length
decreasing_by
  have hopen := length_of_dropWhile_eq_cons _opened
  have hclose := length_of_dropWhile_eq_cons _closed
  omega

def segments (template : String) : Except Cause (List Segment) :=
  split template.toList

def Segment.kind : Segment → TokenKind
  | .text s => .literal (.string s)
  | .name s => .name s

/-- The operands of the sum.  The first is always a string, which makes the sum a concatenation. -/
def operands (segments : List Segment) : List TokenKind :=
  match segments with
  | .text s :: rest => .literal (.string s) :: rest.map Segment.kind
  | _ => .literal (.string "") :: segments.map Segment.kind

def expansion (segments : List Segment) : List TokenKind :=
  (operands segments).intersperse (.operator .add)

end LineScript.Template

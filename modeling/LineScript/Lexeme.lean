import LineScript.Error

/-!
# Lexemes

The units into which the text of a script falls, before it is decided how a `-` and a `(` are meant.
A `-` is scanned as a difference; the loader turns it into a negation where no operand comes before
it.
-/

namespace LineScript

inductive Lexeme where
  | float (x : Float)
  | integer (n : Int64)
  | string (s : String)
  | template (s : String)
  | bool (b : Bool)
  | null
  | type (t : ValueType)
  | keyword (k : Keyword)
  | name (s : String)
  | label (s : String)
  | operator (op : Operator)
  | openParen
  | closeParen
  | openBrace
  | closeBrace
  | comma
  | semicolon
  | newline
  deriving DecidableEq, Repr

namespace Lexeme

/-- The words that are no names. -/
def reserved : List (String × Lexeme) :=
  [("true", .bool true), ("false", .bool false), ("null", .null),
   ("int", .type .int), ("float", .type .float), ("string", .type .string),
   ("bool", .type .bool),
   ("if", .keyword .if), ("else", .keyword .else), ("while", .keyword .while),
   ("for", .keyword .for), ("goto", .keyword .goto), ("goback", .keyword .goback),
   ("def", .keyword .define), ("return", .keyword .return), ("system", .keyword .system),
   ("break", .keyword .break), ("continue", .keyword .continue)]

def ofWord (word : String) : Lexeme :=
  (reserved.lookup word).getD (.name word)

def pairs : List ((Char × Char) × Lexeme) :=
  [(('+', '='), .operator .addAssign), (('-', '='), .operator .subAssign),
   (('*', '='), .operator .mulAssign), (('/', '='), .operator .divAssign),
   (('%', '='), .operator .modAssign), (('*', '*'), .operator .pow),
   (('=', '='), .operator .equal), (('!', '='), .operator .notEqual),
   (('<', '='), .operator .lessEqual), (('>', '='), .operator .greaterEqual),
   (('&', '&'), .operator .and), (('|', '|'), .operator .or)]

def singles : List (Char × Lexeme) :=
  [('+', .operator .add), ('-', .operator .sub), ('*', .operator .mul), ('/', .operator .div),
   ('%', .operator .mod), ('<', .operator .less), ('>', .operator .greater),
   ('!', .operator .not), ('=', .operator .assign),
   ('(', .openParen), (')', .closeParen), ('\x7b', .openBrace), ('\x7d', .closeBrace),
   (',', .comma), (';', .semicolon), ('\n', .newline)]

end Lexeme

end LineScript

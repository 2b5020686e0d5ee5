import LineScript.Text.Printable

/-!
# Quoted text

The form in which a line shows the text of a string: double quotes around it, a backslash before a
quote or a backslash, short escapes for four controls, and the code point in hexadecimal for every
other character that is not shown as it is.
-/

namespace LineScript.Text

def codeEscape (c : Char) : List Char :=
  "\\u\x7b".toList ++ Nat.toDigits 16 c.toNat ++ ['\x7d']

def quotedChar (c : Char) : List Char :=
  if c = '\x00' then ['\\', '0']
  else if c = '\t' then ['\\', 't']
  else if c = '\r' then ['\\', 'r']
  else if c = '\n' then ['\\', 'n']
  else if c = '"' then ['\\', '"']
  else if c = '\\' then ['\\', '\\']
  else if isShown c then [c]
  else codeEscape c

def quoteChars (cs : List Char) : List Char :=
  '"' :: (cs.flatMap quotedChar ++ ['"'])

def quote (s : String) : String :=
  String.ofList (quoteChars s.toList)

end LineScript.Text

import JointCircuit.Text.Hex
import JointCircuit.Text.Printable

/-!
# Quoted text

A text between quotes for a reader's eye.  The quote and the backslash get a
backslash in front, four controls are written as a backslash and a letter or
digit, and every other hidden character as its code point between braces.
-/

namespace JointCircuit.Text

/-- The form of one character between quotes. -/
def quotedChar (c : Char) : List Char :=
  if c = '"' then ['\\', '"']
  else if c = '\\' then ['\\', '\\']
  else if c = '\n' then ['\\', 'n']
  else if c = '\r' then ['\\', 'r']
  else if c = '\t' then ['\\', 't']
  else if c.toNat = 0 then ['\\', '0']
  else if isPrintable c then [c]
  else ['\\', 'u', '\x7b'] ++ (hexNat c.toNat).toList ++ ['\x7d']

/-- A text between quotes. -/
def quoted (s : String) : String :=
  String.ofList ('"' :: (s.toList.flatMap quotedChar ++ ['"']))

end JointCircuit.Text

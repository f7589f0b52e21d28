import JointCircuit.Json.Read.Basic
import JointCircuit.Text.Hex

/-!
# Reading strings

A string ends at its closing quote.  Characters below the space may not stand in
it, and a backslash starts an escape.  The reader takes the way to read escapes
with hexadecimal digits as an argument: where the string is wanted they have to
write a character, where it is skipped any four digits will do.

Each round of the loop takes at least one character, so the length of the text
bounds it.
-/

namespace JointCircuit.Json

/-- Four hexadecimal digits.  A text that has not even four bytes left ends too
early. -/
def hexUnit (s : List Char) : Except Fault (Nat × List Char) :=
  match s with
  | a :: b :: c :: d :: rest =>
      match Text.hexValue? a, Text.hexValue? b, Text.hexValue? c, Text.hexValue? d with
      | some a, some b, some c, some d => .ok (((a * 16 + b) * 16 + c) * 16 + d, rest)
      | _, _, _, _ => .error .malformed
  | _ =>
      if (String.ofList s).utf8ByteSize < 4 then .error .truncated else .error .malformed

/-- Decide whether a unit is the first half of a surrogate pair. -/
def isHighHalf (u : Nat) : Bool := 0xD800 ≤ u && u ≤ 0xDBFF

/-- Decide whether a unit is the second half of a surrogate pair. -/
def isLowHalf (u : Nat) : Bool := 0xDC00 ≤ u && u ≤ 0xDFFF

/-- The character of an escape with hexadecimal digits.  A character beyond the
first plane takes two such escapes. -/
def unicodeEscape : Read Char := fun s => do
  let (u, s) ← hexUnit s
  if isLowHalf u then .error .malformed
  else if isHighHalf u then do
    let s ← expect ['\\', 'u'] s
    let (l, s) ← hexUnit s
    if isLowHalf l then .ok (Char.ofNat ((u - 0xD800) * 1024 + (l - 0xDC00) + 0x10000), s)
    else .error .malformed
  else .ok (Char.ofNat u, s)

/-- An escape of four hexadecimal digits, whatever they mean. -/
def anyUnicodeEscape : Read Char := fun s => do
  let (_, s) ← hexUnit s
  .ok (' ', s)

/-- The character of an escape, after the backslash. -/
def escape (unicode : Read Char) : Read Char
  | [] => .error .truncated
  | '"' :: s => .ok ('"', s)
  | '\\' :: s => .ok ('\\', s)
  | '/' :: s => .ok ('/', s)
  | 'b' :: s => .ok (Char.ofNat 8, s)
  | 'f' :: s => .ok (Char.ofNat 12, s)
  | 'n' :: s => .ok ('\n', s)
  | 'r' :: s => .ok ('\r', s)
  | 't' :: s => .ok ('\t', s)
  | 'u' :: s => unicode s
  | _ :: _ => .error .malformed

/-- The characters of a string after its opening quote, at most `fuel` of them. -/
def stringChars (unicode : Read Char) : Nat → Read (List Char)
  | 0, _ => .error .truncated
  | _ + 1, [] => .error .truncated
  | fuel + 1, c :: s =>
      if c = '"' then .ok ([], s)
      else if c = '\\' then do
        let (d, s) ← escape unicode s
        let (ds, s) ← stringChars unicode fuel s
        .ok (d :: ds, s)
      else if c.toNat < 32 then .error .malformed
      else do
        let (ds, s) ← stringChars unicode fuel s
        .ok (c :: ds, s)

/-- A string after its opening quote. -/
def stringRest (unicode : Read Char) : Read String := fun s => do
  let (cs, s) ← stringChars unicode s.length s
  .ok (String.ofList cs, s)

end JointCircuit.Json

/-!
# Numerals

Indices, widths and counts are words of 64 bits: naturals up to `maxIndex`.  In
a circuit text a number is written as decimal digits with one optional plus
sign.  Leading zeros are allowed, and a value above `maxIndex` is no number.

`valueFrom` is the value of a row of digits read after the digits of `n`, and
`number?` is the reader.
-/

namespace JointCircuit

/-- The greatest index, width or count. -/
def maxIndex : Nat := 0xffffffffffffffff

/-- The end of a range of `width` wires from `first`, held at `maxIndex`. -/
def rangeEnd (first width : Nat) : Nat := min (first + width) maxIndex

end JointCircuit

namespace JointCircuit.Text

/-- Decide whether a character is a decimal digit of ASCII. -/
def isDigit (c : Char) : Bool := '0' ≤ c && c ≤ '9'

/-- The value of a digit. -/
def digitValue (c : Char) : Nat := c.toNat - '0'.toNat

/-- The number written by the digits of `n` followed by the digits given. -/
def valueFrom (n : Nat) (digits : List Char) : Nat :=
  digits.foldl (fun v c => 10 * v + digitValue c) n

/-- A text without its leading plus sign, if it has one. -/
def dropPlus : List Char → List Char
  | '+' :: s => s
  | s => s

/-- Read a number that fills the whole word. -/
def number? (word : List Char) : Option Nat :=
  let digits := dropPlus word
  if digits = [] then none
  else if digits.all isDigit then
    let n := valueFrom 0 digits
    if n ≤ maxIndex then some n else none
  else none

theorem number?_le {word : List Char} {n : Nat} (h : number? word = some n) : n ≤ maxIndex := by
  simp only [number?] at h
  split at h
  · cases h
  · split at h
    · split at h
      · cases h; assumption
      · cases h
    · cases h

end JointCircuit.Text

import JointCircuit.Text.Numeral

/-!
# Hexadecimal text of bytes

A byte is written as two lower case hexadecimal digits, the upper half first.
Reading takes digits of either case and refuses an odd number of them.
-/

namespace JointCircuit.Text

/-- The hexadecimal digit of a value below sixteen. -/
def hexDigit (n : Nat) : Char :=
  if n < 10 then Char.ofNat ('0'.toNat + n) else Char.ofNat ('a'.toNat + (n - 10))

/-- The value of a hexadecimal digit. -/
def hexValue? (c : Char) : Option Nat :=
  if isDigit c then some (digitValue c)
  else if 'a' ≤ c && c ≤ 'f' then some (c.toNat - 'a'.toNat + 10)
  else if 'A' ≤ c && c ≤ 'F' then some (c.toNat - 'A'.toNat + 10)
  else none

/-- The two digits of a byte. -/
def hexByte (b : UInt8) : List Char := [hexDigit (b.toNat / 16), hexDigit (b.toNat % 16)]

/-- The digits of a row of bytes. -/
def hex (bytes : List UInt8) : String := String.ofList (bytes.flatMap hexByte)

/-- The bytes written by a row of digits. -/
def hexBytes? : List Char → Option (List UInt8)
  | [] => some []
  | [_] => none
  | a :: b :: s => do
      let high ← hexValue? a
      let low ← hexValue? b
      let rest ← hexBytes? s
      return UInt8.ofNat (16 * high + low) :: rest

/-- The digits of a natural without leading zeros, and a single zero for zero. -/
def hexNat (n : Nat) : String := String.ofList (Nat.toDigits 16 n)

end JointCircuit.Text

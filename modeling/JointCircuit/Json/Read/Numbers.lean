import JointCircuit.Json.Read.Basic
import JointCircuit.Text.Numeral

/-!
# Reading numbers

A number is an optional minus sign, digits without a superfluous zero in front, an
optional fraction and an optional exponent.  Without the last two it is an integer
as far as integers go.

A binary64 number is read off its first digits.  They are gathered as long as
their value fits into a word.  Whole digits beyond only raise the exponent, and
digits of the fraction beyond are dropped.  What was gathered is then multiplied
or divided by a power of ten in binary64 (`scaled`), so the result can differ from
the nearest number in its last bit.
-/

namespace JointCircuit.Json

/-- Read digits on top of `n` as long as the value stays within a word.  Returns
the value and the digits that did not fit. -/
def accumulate (n : Nat) : List Char → Nat × List Char
  | [] => (n, [])
  | c :: ds =>
      let n' := 10 * n + Text.digitValue c
      if n' ≤ maxIndex then accumulate n' ds else (n, c :: ds)

/-- The longest row of digits in front, and the rest. -/
def takeDigits (s : List Char) : List Char × List Char :=
  (s.takeWhile Text.isDigit, s.dropWhile Text.isDigit)

/-- The power of ten with a natural exponent, rounded once. -/
def powerOfTen (n : Nat) : Float := Float.ofScientific 1 false n

/-- The number `significand * 10 ^ exponent`, computed in binary64: one rounding
for the significand, one for the power and one for each product or quotient.
Powers above `10 ^ 308` take two quotients, and a product beyond the range is no
number. -/
def scaled (significand : Nat) (exponent : Int) : Except Fault Float :=
  let f := Float.ofNat significand
  if significand = 0 then .ok f
  else if 308 < exponent then .error .malformed
  else if 0 ≤ exponent then
    let r := f * powerOfTen exponent.toNat
    if r.isInf then .error .malformed else .ok r
  else if -308 ≤ exponent then .ok (f / powerOfTen (-exponent).toNat)
  else if -616 ≤ exponent then .ok (f / powerOfTen 308 / powerOfTen (-exponent - 308).toNat)
  else .ok 0

/-- The binary64 number with a sign, a significand and an exponent. -/
def floatValue (negative : Bool) (significand : Nat) (exponent : Int) : Except Fault Json := do
  let f ← scaled significand exponent
  .ok (.float (Binary64.ofFloat (if negative then -f else f)))

/-- The sign of an exponent, negative or not. -/
def exponentSign : List Char → Bool × List Char
  | '+' :: s => (false, s)
  | '-' :: s => (true, s)
  | s => (false, s)

/-- The greatest exponent that is counted.  Beyond it only zero is in range. -/
def maxExponent : Nat := 0x7fffffff

/-- A number from its exponent on, after the letter. -/
def numberExponent (negative : Bool) (significand : Nat) (exponent : Int) : Read Json := fun s => do
  let (down, s) := exponentSign s
  let (ds, rest) := takeDigits s
  match ds, s with
  | [], [] => .error .truncated
  | [], _ :: _ => .error .malformed
  | _ :: _, _ =>
      let n := Text.valueFrom 0 ds
      if maxExponent < n then
        if significand ≠ 0 && !down then .error .malformed
        else .ok (.float (Binary64.ofFloat (if negative then -0.0 else 0.0)), rest)
      else do
        let v ← floatValue negative significand (if down then exponent - n else exponent + n)
        .ok (v, rest)

/-- A number after all its digits: the exponent, if there is one. -/
def numberEnd (negative : Bool) (significand : Nat) (exponent : Int) : Read Json
  | 'e' :: s => numberExponent negative significand exponent s
  | 'E' :: s => numberExponent negative significand exponent s
  | s => do
      let v ← floatValue negative significand exponent
      .ok (v, s)

/-- A number after its point.  Digits that do not fit are dropped. -/
def numberFraction (negative : Bool) (significand : Nat) (exponent : Int) : Read Json := fun s =>
  let (ds, rest) := takeDigits s
  match ds, rest with
  | [], [] => .error .truncated
  | [], _ :: _ => .error .malformed
  | _ :: _, _ =>
      let (n, unread) := accumulate significand ds
      numberEnd negative n (exponent - (ds.length - unread.length : Nat)) rest

/-- An integer, or the nearest float when it is a negative zero or below the
least integer. -/
def integerValue (negative : Bool) (n : Nat) : Json :=
  if !negative then .int n
  else if n = 0 || 1 <<< 63 < n then .float (Binary64.ofFloat (-Float.ofNat n))
  else .int (-n)

/-- A number after its sign.  Whole digits that do not fit raise the exponent. -/
def numberRest (negative : Bool) : Read Json := fun s =>
  let (ds, rest) := takeDigits s
  match ds, rest with
  | [], [] => .error .truncated
  | [], _ :: _ => .error .malformed
  | '0' :: _ :: _, _ => .error .malformed
  | _ :: _, _ =>
      let (n, unread) := accumulate 0 ds
      match rest with
      | '.' :: s => numberFraction negative n unread.length s
      | 'e' :: s => numberExponent negative n unread.length s
      | 'E' :: s => numberExponent negative n unread.length s
      | s =>
          if unread = [] then .ok (integerValue negative n, s)
          else numberEnd negative n unread.length s

/-- Skip an exponent after its letter. -/
def skipExponent : Read Json := fun s =>
  let (_, s) := exponentSign s
  match takeDigits s with
  | ([], _) => .error .malformed
  | (_ :: _, rest) => .ok (.null, rest)

/-- Skip a number after its sign. -/
def skipNumber : Read Json := fun s =>
  match takeDigits s with
  | ([], _) => .error .malformed
  | ('0' :: _ :: _, _) => .error .malformed
  | (_ :: _, 'e' :: s) => skipExponent s
  | (_ :: _, 'E' :: s) => skipExponent s
  | (_ :: _, '.' :: s) =>
      match takeDigits s with
      | ([], _) => .error .malformed
      | (_ :: _, 'e' :: s) => skipExponent s
      | (_ :: _, 'E' :: s) => skipExponent s
      | (_ :: _, s) => .ok (.null, s)
  | (_ :: _, s) => .ok (.null, s)

end JointCircuit.Json

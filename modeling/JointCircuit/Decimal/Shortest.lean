/-!
# Shortest decimals

A binary floating point number with magnitude `m * 2 ^ q` stands for all reals
that round to it.  They form an interval: from half the gap to the number below,
up to half the gap to the number above, with both ends inside exactly when `m`
is even, because ties round to even.  The shortest decimal of the number is the
decimal in that interval with the fewest digits, and of those the nearest to the
number.

The search walks over grids.  The grid of `n` digits holds the multiples of
`10 ^ (e - n + 1)`, where `e` is the exponent of the leading decimal digit.  If a
grid meets the interval, one of the two grid points next to the number lies in
it.  So each grid needs two tests, the first grid that passes wins, and seventeen
digits always pass.

All quantities are naturals: `Interval` holds the number and its two ends over a
common denominator, and a grid point `d * 10 ^ k` is compared by multiplying out.
-/

namespace JointCircuit.Decimal

/-- A decimal `digits * 10 ^ exponent`. -/
structure Scientific where
  /-- The digits, as one natural. -/
  digits : Nat
  /-- The exponent of the last digit. -/
  exponent : Int
deriving DecidableEq, Repr

/-- A number with the reals that round to it, each over the denominator `den`. -/
structure Interval where
  /-- Numerator of the lower end. -/
  low : Nat
  /-- Numerator of the number. -/
  mid : Nat
  /-- Numerator of the upper end. -/
  high : Nat
  /-- The common denominator. -/
  den : Nat
  /-- Whether the ends round to the number. -/
  closed : Bool

/-- The interval of `m * 2 ^ q`.  The gap below is half as wide when `narrow`,
which holds at a power of two above the smallest exponent. -/
def Interval.ofBinary (m : Nat) (q : Int) (narrow : Bool) : Interval :=
  let up := 1 <<< (q - 2).toNat
  { low := (4 * m - if narrow then 1 else 2) * up
    mid := 4 * m * up
    high := (4 * m + 2) * up
    den := 1 <<< (2 - q).toNat
    closed := m % 2 == 0 }

/-- The interval with everything divided by `10 ^ k`. -/
def Interval.shift (i : Interval) (k : Int) : Interval :=
  let up := Nat.pow 10 (-k).toNat
  { i with
    low := i.low * up
    mid := i.mid * up
    high := i.high * up
    den := i.den * Nat.pow 10 k.toNat }

/-- Decide whether the natural `d` lies in the interval. -/
def Interval.holds (i : Interval) (d : Nat) : Bool :=
  let x := d * i.den
  if i.closed then decide (i.low ≤ x ∧ x ≤ i.high) else decide (i.low < x ∧ x < i.high)

/-- The natural in the interval nearest to the number, of the two next to it.  A
tie goes to the even one. -/
def Interval.nearest? (i : Interval) : Option Nat :=
  let below := i.mid / i.den
  let above := below + 1
  match i.holds below, i.holds above with
  | true, true =>
      let up := above * i.den - i.mid
      let down := i.mid - below * i.den
      if up < down || (up == down && above % 2 == 0) then some above else some below
  | true, false => some below
  | false, true => some above
  | false, false => none

/-- An exponent at or a little below that of the leading decimal digit of
`num / den`, from the lengths of the two in bits. -/
def leadingGuess (num den : Nat) : Int :=
  ((Nat.log2 num : Int) - Nat.log2 den - 1) * 30103 / 100000 - 1

/-- The exponent of the leading decimal digit of `num / den`, found upwards from
`e` in at most `fuel` steps. -/
def leadingFrom (num den : Nat) : Nat → Int → Int
  | 0, e => e
  | fuel + 1, e =>
      let up := e + 1
      if den * Nat.pow 10 up.toNat ≤ num * Nat.pow 10 (-up).toNat then leadingFrom num den fuel up
      else e

/-- The first grid that meets the interval, from `n` digits on. -/
def searchGrids (i : Interval) (e : Int) : Nat → Nat → Option Scientific
  | 0, _ => none
  | fuel + 1, n =>
      let k := e - n + 1
      match (i.shift k).nearest? with
      | some d => some ⟨d, k⟩
      | none => searchGrids i e fuel (n + 1)

/-- The decimal without its trailing zeros, taking off at most `fuel` of them. -/
def Scientific.strip : Nat → Scientific → Scientific
  | 0, s => s
  | fuel + 1, s =>
      if s.digits % 10 == 0 && s.digits != 0 then strip fuel ⟨s.digits / 10, s.exponent + 1⟩ else s

/-- The shortest decimal that reads back as the magnitude `m * 2 ^ q`. -/
def shortest (m : Nat) (q : Int) (narrow : Bool) : Scientific :=
  if m = 0 then ⟨0, 0⟩
  else
    let i := Interval.ofBinary m q narrow
    let e := leadingFrom i.mid i.den 4 (leadingGuess i.mid i.den)
    ((searchGrids i e 17 1).getD ⟨m, q⟩).strip 18

end JointCircuit.Decimal

/-!
# Binary64 numbers

A binary64 number is its 64 bits: a sign, a biased exponent of eleven bits and a
fraction of 52.  The magnitude of a finite one is `significand * 2 ^ scale`.  An
exponent field of zero stands for the same scale as one, and takes away the
leading bit of the significand.
-/

namespace JointCircuit

/-- A binary64 number, held as its bits, so that equality is decided on the
number as it is stored. -/
structure Binary64 where
  /-- Sign, biased exponent and fraction, from the highest bit down. -/
  bits : UInt64
deriving DecidableEq, Inhabited

namespace Binary64

/-- The number with the bits of a machine float. -/
def ofFloat (x : Float) : Binary64 := ⟨x.toBits⟩

/-- Decide the sign bit. -/
def isNegative (x : Binary64) : Bool := x.bits.toNat >>> 63 == 1

/-- The biased exponent. -/
def exponentField (x : Binary64) : Nat := x.bits.toNat >>> 52 % 1 <<< 11

/-- The fraction. -/
def fraction (x : Binary64) : Nat := x.bits.toNat % 1 <<< 52

/-- The integer `m` of the magnitude `m * 2 ^ q`. -/
def significand (x : Binary64) : Nat :=
  if x.exponentField = 0 then x.fraction else 1 <<< 52 + x.fraction

/-- The exponent `q` of the magnitude `m * 2 ^ q`. -/
def scale (x : Binary64) : Int := (max x.exponentField 1 : Nat) - 1075

end Binary64

end JointCircuit

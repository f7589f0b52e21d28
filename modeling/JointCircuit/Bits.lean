import JointCircuit.Text.Numeral

/-!
# Integers as bits

An integer of 128 bits is written on `n` wires, the most significant bit first.
An integer that is too wide loses its upper bits, and wires above its own bits get
copies of its sign.  The bit at a place is the lowest one after a shift by the place.
A shift goes by fewer places than the integer has bits, so beyond these the sign is
asked for in its stead.

Reading goes the other way and gives a natural below `2 ^ 64`.  It is refused as
soon as the value read so far has no room for another bit.
-/

namespace JointCircuit.Bits

/-- The bit of an integer at a place, counted from its lowest bit. -/
def digit (v : BitVec 128) (place : Nat) : Bool :=
  if 128 ≤ place then v.slt 0#128 else (v.sshiftRight place).getLsbD 0

/-- The bits of an integer on `n` wires, most significant first. -/
def encode (v : BitVec 128) : Nat → List Bool
  | 0 => []
  | n + 1 => digit v n :: encode v n

/-- The value of a bit. -/
def bit (b : Bool) : Nat := if b then 1 else 0

/-- Read bits behind the bits of `n`. -/
def readFrom : Nat → List Bool → Option Nat
  | n, [] => some n
  | n, b :: bs => if 1 <<< 63 ≤ n then none else readFrom (2 * n + bit b) bs

/-- The natural that bits write, most significant first. -/
def toNat? (bits : List Bool) : Option Nat := readFrom 0 bits

/-- The text of a row of bits, a digit each. -/
def text (bits : List Bool) : String :=
  String.ofList (bits.map fun b => if b then '1' else '0')

/-- The bits a row of digits writes. -/
def ofText? (s : String) : Option (List Bool) :=
  s.toList.mapM fun c =>
    if c = '1' then some true else if c = '0' then some false else none

end JointCircuit.Bits

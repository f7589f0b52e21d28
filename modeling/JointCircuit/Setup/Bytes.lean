import JointCircuit.Setup.Basic

/-!
# Setups as bytes

The canonical bytes of a setup, over which its fingerprint is taken.  Counts and
wires are eight bytes, the lowest first.  A string is the number of its UTF-8
bytes and those bytes.  A list is the number of its elements and the elements.
A table is a list of names, each followed by its wire, in the order of the names.
Records are their fields in order.

So every part says its length before it starts, and no part can run into the
next.
-/

namespace JointCircuit.Setup

/-- The `count` lowest bytes of a number, lowest first. -/
def littleEndian : Nat → Nat → List UInt8
  | 0, _ => []
  | count + 1, n => UInt8.ofNat (n % 256) :: littleEndian count (n / 256)

/-- A count or wire. -/
def wordBytes (n : Nat) : List UInt8 := littleEndian 8 n

/-- A string. -/
def textBytes (s : String) : List UInt8 :=
  let bytes := s.toUTF8.data.toList
  wordBytes bytes.length ++ bytes

/-- A list of elements written by `f`. -/
def listBytes {α : Type} (f : α → List UInt8) (xs : List α) : List UInt8 :=
  wordBytes xs.length ++ xs.flatMap f

/-- An entry of a table. -/
def entryBytes (e : String × Nat) : List UInt8 := textBytes e.1 ++ wordBytes e.2

/-- A table from names to wires. -/
def tableBytes (t : NameTable Nat) : List UInt8 := listBytes entryBytes t.entries

/-- A circuit. -/
def circuitBytes (c : Circuit) : List UInt8 :=
  textBytes c.text ++ (tableBytes c.inputs ++ tableBytes c.outputs)

/-- A party. -/
def partyBytes (p : Party) : List UInt8 :=
  textBytes p.name ++ (listBytes textBytes p.inputs ++ listBytes textBytes p.outputs)

/-- A setup. -/
def bytes (s : Setup) : List UInt8 :=
  circuitBytes s.circuit ++ listBytes partyBytes s.parties

end JointCircuit.Setup

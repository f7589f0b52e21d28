import JointCircuit.Circuit.Fault
import JointCircuit.Lowering.WireRef
import JointCircuit.Setup.Basic
import JointCircuit.Text.Numeral

/-!
# Laying values over wires

A circuit names the first wire of every value and its header lists the widths.
The two are matched by rank: the values in order of their first wires, those on
one wire in order of their names, take the widths of the header in turn.  A
value with its place and width is a `Slot`.

The inputs are then placed.  The parties are taken in order, the slots of each
by rank, and every wire a slot covers gets the next wire of the lowered circuit.
A slot may not cover a wire of another slot nor one the circuit does not have.

A range of wires ends at `maxIndex` at the latest (`rangeEnd`), so a value on the
last index of all covers no wire.  The walk over a range is counted by the wires
that exist, whatever width the header gives.
-/

namespace JointCircuit

/-- A named value on its wires. -/
structure Slot where
  name : String
  /-- Its first wire, which holds the most significant bit. -/
  wire : Nat
  width : Nat
deriving DecidableEq, Repr, Inhabited

namespace Slot

/-- The end of the wires of a slot. -/
def stop (s : Slot) : Nat := rangeEnd s.wire s.width

/-- The number of wires of a slot. -/
def extent (s : Slot) : Nat := s.stop - s.wire

/-! ## Ranks -/

/-- Put an entry before the first one whose wire is not lower. -/
def insertByWire (e : String × Nat) : List (String × Nat) → List (String × Nat)
  | [] => [e]
  | f :: fs => if e.2 ≤ f.2 then e :: f :: fs else f :: insertByWire e fs

/-- Entries in the order of their wires.  Those of one wire keep their order. -/
def sortByWire : List (String × Nat) → List (String × Nat)
  | [] => []
  | e :: es => insertByWire e (sortByWire es)

/-- The names of a table with their wires, by rank. -/
def rank (table : NameTable Nat) : List (String × Nat) := sortByWire table.entries

/-- The slots of a table, by rank, when there are as many widths as names. -/
def ofTable (side : Side) (table : NameTable Nat) (widths : List Nat) :
    Except CircuitFault (List Slot) :=
  if table.size = widths.length then
    .ok (List.zipWith (fun e width => ⟨e.1, e.2, width⟩) (rank table) widths)
  else .error (.nameCount side widths.length table.size)

/-- The slots of the names in a list, by rank. -/
def select (slots : List Slot) (names : List String) : List Slot :=
  slots.filter fun s => names.contains s.name

end Slot

/-! ## Placing the inputs -/

/-- The input wires placed so far. -/
structure Placement where
  /-- The lowered wire of every wire covered. -/
  wires : IndexMap WireRef
  next : Nat

namespace Placement

/-- The placement of no wire. -/
def empty : Placement := ⟨IndexMap.empty, 0⟩

/-- Cover `count` wires from `wire` on for the input `name`. -/
def cover (name : String) : Nat → Nat → Placement → Except CircuitFault Placement
  | 0, _, p => .ok p
  | count + 1, wire, p =>
      match p.wires.get? wire with
      | some _ => .error (.inputOverlap name wire)
      | none => cover name count (wire + 1) ⟨p.wires.set wire (.placed p.next), p.next + 1⟩

/-- Cover the wires of a slot in a circuit of `wireCount` wires. -/
def coverSlot (wireCount : Nat) (p : Placement) (s : Slot) : Except CircuitFault Placement := do
  let p ← cover s.name (min s.stop wireCount - s.wire) s.wire p
  if s.wire < s.stop ∧ wireCount < s.stop then .error (.inputBeyondWires s.name wireCount)
  else .ok p

/-- Cover the wires of a row of slots. -/
def coverSlots (wireCount : Nat) : Placement → List Slot → Except CircuitFault Placement
  | p, [] => .ok p
  | p, s :: ss => do coverSlots wireCount (← coverSlot wireCount p s) ss

end Placement

end JointCircuit

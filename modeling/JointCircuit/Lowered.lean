import JointCircuit.IndexMap

/-!
# Lowered circuits

The form of a circuit an engine runs: conjunction, exclusive disjunction and
inversion are its only gates.  The inputs are the lowest wires, grouped by party
in the order of the parties.  The outputs are one block at the highest wires.

A gate is parametrised by its type of wires, because while a circuit is being
lowered its outputs have no final place yet.

`LoweredCircuit.eval` runs a circuit on bits.  `LoweredCircuit.text` is the form
that is handed to an engine.  Its second line has a slot for the inputs of each
of two parties.  With another number of parties the first slot holds the total
and the second a zero.
-/

namespace JointCircuit

/-- A gate of a lowered circuit, its output last. -/
inductive LoweredGate (W : Type) where
  | and (x y z : W)
  | xor (x y z : W)
  | inv (x z : W)
deriving DecidableEq, Repr

namespace LoweredGate

variable {V W : Type}

/-- The gate with every wire renamed. -/
def map (f : V → W) : LoweredGate V → LoweredGate W
  | .and x y z => .and (f x) (f y) (f z)
  | .xor x y z => .xor (f x) (f y) (f z)
  | .inv x z => .inv (f x) (f z)

/-- The wire a gate writes. -/
def output : LoweredGate W → W
  | .and _ _ z => z
  | .xor _ _ z => z
  | .inv _ z => z

/-- The wires a gate reads. -/
def operands : LoweredGate W → List W
  | .and x y _ => [x, y]
  | .xor x y _ => [x, y]
  | .inv x _ => [x]

/-- Decide whether a gate is a conjunction. -/
def isAnd : LoweredGate W → Bool
  | .and _ _ _ => true
  | _ => false

/-- The memory after a gate. -/
def run (m : Memory) : LoweredGate Nat → Memory
  | .and x y z => m.set z (m.read x && m.read y)
  | .xor x y z => m.set z (m.read x ^^ m.read y)
  | .inv x z => m.set z (!m.read x)

/-- The line of a gate. -/
def text : LoweredGate Nat → String
  | .and x y z => s!"2 1 {x} {y} {z} AND"
  | .xor x y z => s!"2 1 {x} {y} {z} XOR"
  | .inv x z => s!"1 1 {x} {z} INV"

end LoweredGate

/-- A circuit in the form an engine runs. -/
structure LoweredCircuit where
  /-- The gates in the order they are run. -/
  gates : List (LoweredGate Nat)
  wireCount : Nat
  /-- The number of input bits of each party. -/
  partyBits : List Nat
  outputBits : Nat
deriving DecidableEq, Repr

/-- Why bits could not be run through a lowered circuit. -/
inductive RunFault where
  | bitCount (expected found : Nat)
  | tooFewWires (bits wires : Nat)
deriving DecidableEq, Repr

namespace LoweredCircuit

/-- The number of input bits of all parties. -/
def inputBits (c : LoweredCircuit) : Nat := @List.sum Nat _ Zero.ofOfNat0 c.partyBits

/-- The first wire of the output block. -/
def firstOutput (c : LoweredCircuit) : Nat := c.wireCount - c.outputBits

/-- The number of conjunctions, which cost the most when run jointly. -/
def andGates (c : LoweredCircuit) : Nat := c.gates.countP LoweredGate.isAnd

/-- The memory after all gates, from the bits on the first wires. -/
def run (c : LoweredCircuit) (bits : List Bool) : Memory :=
  c.gates.foldl LoweredGate.run (Memory.ofBits bits)

/-- The output block, from the bits of all parties. -/
def eval (c : LoweredCircuit) (bits : List Bool) : Except RunFault (List Bool) :=
  if bits.length ≠ c.inputBits then .error (.bitCount c.inputBits bits.length)
  else if c.wireCount < bits.length then .error (.tooFewWires bits.length c.wireCount)
  else .ok ((c.run bits).block c.firstOutput c.outputBits)

/-- The line with the numbers of input and output bits. -/
def widthLine (c : LoweredCircuit) : String :=
  match c.partyBits with
  | [a, b] => s!"{a} {b} {c.outputBits}"
  | _ => s!"{c.inputBits} 0 {c.outputBits}"

/-- The text an engine reads.  The last gate has no line feed behind it. -/
def text (c : LoweredCircuit) : String :=
  s!"{c.gates.length} {c.wireCount}\n{c.widthLine}\n"
    ++ String.join (c.gates.map fun g => "\n" ++ g.text)

end LoweredCircuit

end JointCircuit

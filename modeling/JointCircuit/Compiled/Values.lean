import JointCircuit.Compiled.Basic

/-!
# Values through a compiled setup

The two ends of a computation.  `encodeInput` turns the values of a party into the
bits of its inputs, and `decodeOutput` turns the output block into the values of
all outputs.  Both go through the slots by rank, and the first slot that fails
gives the error.

`eval` is the computation by a single reader of all inputs.
-/

namespace JointCircuit.Compiled

/-! ## Values to bits -/

/-- The input bits of a party. -/
def encodeInput (c : Compiled) (party : String) (values : Values) :
    Except EncodingError (List Bool) :=
  match c.partyIndex? party with
  | none => .error (.unknownParty party)
  | some p => encodeValues party (c.inputs.getD p []) values

/-- The input bits of a row of parties, each with its values. -/
def encodeAll (c : Compiled) : List (Party × Values) → Except EncodingError (List Bool)
  | [] => .ok []
  | (p, values) :: rest => do
      let bits ← c.encodeInput p.name values
      let more ← c.encodeAll rest
      .ok (bits ++ more)

/-! ## Bits to values -/

/-- The place of a wire in the output block. -/
def outputPlace? (c : Compiled) (wire : Nat) : Option Nat :=
  match c.newWire? wire with
  | none => none
  | some w =>
      if c.lowered.firstOutput ≤ w ∧ w - c.lowered.firstOutput < c.lowered.outputBits then
        some (w - c.lowered.firstOutput)
      else none

/-- The bits on `count` wires from `wire` on, for the output `name`. -/
def readWires (c : Compiled) (block : List Bool) (name : String) :
    Nat → Nat → Except EncodingError (List Bool)
  | 0, _ => .ok []
  | count + 1, wire =>
      match c.outputPlace? wire with
      | none => .error (.unmappedOutputWire name wire)
      | some p => do
          let rest ← c.readWires block name count (wire + 1)
          .ok (block.getD p false :: rest)

/-- The value of an output in the output block. -/
def decodeSlot (c : Compiled) (block : List Bool) (s : Slot) : Except EncodingError Nat := do
  let bits ← c.readWires block s.name s.extent s.wire
  match Bits.toNat? bits with
  | some n => .ok n
  | none => .error (.outputOverflow s.name)

/-- The values of a row of outputs. -/
def decodeSlots (c : Compiled) (block : List Bool) : List Slot → Except EncodingError Results
  | [] => .ok NameTable.empty
  | s :: ss => do
      let v ← c.decodeSlot block s
      let rest ← c.decodeSlots block ss
      .ok (rest.insert s.name v)

/-- The values of all outputs in the output block. -/
def decodeOutput (c : Compiled) (block : List Bool) : Except EncodingError Results :=
  if block.length ≠ c.lowered.outputBits then
    .error (.wrongBitCount c.lowered.outputBits block.length)
  else c.decodeSlots block c.outputs

/-! ## Evaluation -/

/-- Why a setup could not be evaluated. -/
inductive EvalFault where
  | encoding (e : EncodingError)
  | tooFewWires (bits wires : Nat)

/-- A fault of running the lowered circuit. -/
def EvalFault.ofRun : RunFault → EvalFault
  | .bitCount expected found => .encoding (.wrongBitCount expected found)
  | .tooFewWires bits wires => .tooFewWires bits wires

/-- The results of the circuit on the values of all parties, in party order. -/
def eval (c : Compiled) (inputs : List Values) : Except EvalFault Results :=
  if inputs.length ≠ c.parties.length then
    .error (.encoding (.wrongPartyCount c.parties.length inputs.length))
  else do
    let bits ← (c.encodeAll (c.parties.zip inputs)).mapError .encoding
    let block ← (c.lowered.eval bits).mapError .ofRun
    (c.decodeOutput block).mapError .encoding

end JointCircuit.Compiled

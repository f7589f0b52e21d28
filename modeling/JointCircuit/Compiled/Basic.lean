import JointCircuit.Circuit.Grammar
import JointCircuit.Lowering.Encoding
import JointCircuit.Lowering.Walk
import JointCircuit.Setup.Check
import JointCircuit.Setup.Fingerprint

/-!
# Compiled setups

Compiling a setup reads its circuit, checks its parties, lays the named values
over the wires and walks over the gates.  The first failure in this order is the
result.  A compiled setup holds the lowered circuit and what is needed to turn
values into bits and bits into values.

`compile` puts the stages together.
-/

namespace JointCircuit

/-- Why a setup could not be compiled. -/
inductive CompileError where
  | format (e : FormatError)
  | settings (e : SettingsError)
deriving DecidableEq, Repr, Inhabited

/-- A setup with its lowered circuit. -/
structure Compiled where
  parties : List Party
  fingerprint : Fingerprint
  lowered : LoweredCircuit
  /-- The slots of the inputs of each party, by rank. -/
  inputs : List (List Slot)
  /-- The slots of the outputs, by rank. -/
  outputs : List Slot
  /-- The lowered wire of every wire that was covered or written. -/
  wires : IndexMap Nat

/-! ## The stages -/

/-- What is known of a setup before its gates are walked. -/
structure Layout where
  inputs : List (List Slot)
  outputs : List Slot
  placement : Placement

/-- The number of bits on a row of slots. -/
def slotBits (slots : List Slot) : Nat := @List.sum Nat _ Zero.ofOfNat0 (slots.map Slot.width)

/-- The first named output wire, or the end of the wires if no output is named. -/
def firstOutputWire (circuit : Circuit) (wireCount : Nat) : Nat :=
  (circuit.outputs.values.min?).getD wireCount

/-- Lay the values of a setup over the wires of its circuit. -/
def Setup.layOut (s : Setup) (n : Netlist) : Except FormatError Layout := do
  let inputs ← Netlist.atLine n.header.inputs (Slot.ofTable .input s.circuit.inputs n.inputWidths)
  let outputs ←
    Netlist.atLine n.header.outputs (Slot.ofTable .output s.circuit.outputs n.outputWidths)
  let partyInputs := s.parties.map fun p => Slot.select inputs p.inputs
  let placement ← Netlist.atLine n.header.inputs
    (Placement.coverSlots n.wireCount Placement.empty partyInputs.flatten)
  .ok { inputs := partyInputs, outputs, placement }

/-- Walk over the gates of a circuit whose inputs are placed. -/
def Setup.walk (s : Setup) (n : Netlist) (p : Placement) : Except FormatError Walk := do
  let firstOutput := firstOutputWire s.circuit n.wireCount
  let w ← Walk.run p.next firstOutput (Walk.start p.wires p.next) n.gates
  if w.outputs = n.outputBits then .ok w
  else .error ⟨n.header.outputs, .outputCount n.outputBits w.outputs⟩

/-- The compiled setup at the end of a walk. -/
def Setup.assemble (s : Setup) (l : Layout) (w : Walk) : Compiled :=
  { parties := s.parties
    fingerprint := s.fingerprint
    lowered :=
      { gates := w.gates.toList.map (LoweredGate.map (WireRef.resolve w.next))
        wireCount := w.next + w.outputs
        partyBits := l.inputs.map slotBits
        outputBits := w.outputs }
    inputs := l.inputs
    outputs := l.outputs
    wires := w.wires.map (WireRef.resolve w.next) }

/-- The failure of a stage that reads the circuit. -/
def formatStage {α : Type} : Except FormatError α → Except CompileError α :=
  Except.mapError CompileError.format

/-- Compile a setup. -/
def Setup.compile (s : Setup) : Except CompileError Compiled := do
  let n ← formatStage (Netlist.parse s.circuit.text)
  s.check.mapError CompileError.settings
  let l ← formatStage (s.layOut n)
  let w ← formatStage (s.walk n l.placement)
  .ok (s.assemble l w)

namespace Compiled

/-- The index of the party with a name. -/
def partyIndex? (c : Compiled) (name : String) : Option Nat :=
  JointCircuit.partyIndex? c.parties name

/-- The lowered wire of a wire of the circuit, if it was covered or written. -/
def newWire? (c : Compiled) (wire : Nat) : Option Nat := c.wires.get? wire

end Compiled

end JointCircuit

import JointCircuit.Circuit.Netlist

/-!
# Faults of a circuit

A fault is a cause with the data its message needs, and a `FormatError` is a
fault with the line it was found on.  The faults of the text come first: they
are found line by line while it is read.  The others are found when the names of
the values are laid over the wires and the gates are walked.

`FormatError.message` holds the wording of all of them.
-/

namespace JointCircuit

/-- What is wrong with a circuit. -/
inductive CircuitFault where
  | missingHeader
  | missingWidths (side : Side)
  | notANumber (word : String)
  /-- The first line has another number of numbers than two. -/
  | headerSize (found : Nat)
  | widthCount (side : Side) (declared found : Nat)
  | incompleteGate (text : String)
  /-- A gate line has another number of wires than it says. -/
  | gateWireCount (inputs outputs found : Nat)
  | wireOutOfRange (wire wireCount : Nat)
  | notBinary (keyword : String) (inputs outputs : Nat)
  | notUnary (keyword : String) (inputs outputs : Nat)
  | unknownGate (keyword : String)
  | tooManyGates (declared : Nat)
  | tooFewGates (declared found : Nat)
  /-- A side has another number of names than of widths. -/
  | nameCount (side : Side) (widths names : Nat)
  | inputBeyondWires (name : String) (wireCount : Nat)
  | inputOverlap (name : String) (wire : Nat)
  /-- An inner wire is written after an output wire. -/
  | innerAfterOutput (wire : Nat)
  | readBeforeWritten (wire : Nat)
  | outputCount (declared written : Nat)
deriving DecidableEq, Repr, Inhabited

/-- The wording of a fault. -/
def CircuitFault.reason : CircuitFault → String
  | .missingHeader => "missing header `<gates> <wires>`"
  | .missingWidths side => s!"missing {side.word} widths"
  | .notANumber word => s!"`{word}` is not a number"
  | .headerSize found => s!"expected `<gates> <wires>`, found {found} numbers"
  | .widthCount side declared found =>
      s!"expected {declared} {side.word} widths, found {found}"
  | .incompleteGate text => s!"incomplete gate `{text}`"
  | .gateWireCount inputs outputs found =>
      s!"gate declares {inputs} inputs and {outputs} outputs, but lists {found} wires"
  | .wireOutOfRange wire wireCount =>
      s!"wire {wire} is out of range, the circuit has {wireCount} wires"
  | .notBinary keyword inputs outputs =>
      s!"{keyword} expects 2 inputs and 1 output, found {inputs} and {outputs}"
  | .notUnary keyword inputs outputs =>
      s!"{keyword} expects 1 input and 1 output, found {inputs} and {outputs}"
  | .unknownGate keyword => s!"unsupported gate type `{keyword}`"
  | .tooManyGates declared => s!"expected {declared} gates, found more"
  | .tooFewGates declared found => s!"expected {declared} gates, found {found}"
  | .nameCount side widths names =>
      s!"the header declares {widths} {side.word}s, but {names} {side.word} names are given"
  | .inputBeyondWires name wireCount => s!"input `{name}` extends beyond wire {wireCount}"
  | .inputOverlap name wire => s!"input `{name}` overlaps another input at wire {wire}"
  | .innerAfterOutput wire =>
      s!"gate writes wire {wire}, but an earlier gate already wrote an output wire"
  | .readBeforeWritten wire => s!"wire {wire} is read before it is written"
  | .outputCount declared written =>
      s!"the header declares {declared} output bits, but gates write {written} output wires"

/-- A fault with the line it was found on. -/
structure FormatError where
  /-- The line, counted from one. -/
  line : Nat
  fault : CircuitFault
deriving DecidableEq, Repr, Inhabited

/-- The message of a format error. -/
def FormatError.message (e : FormatError) : String :=
  s!"invalid circuit at line {e.line}: {e.fault.reason}"

end JointCircuit

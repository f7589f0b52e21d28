import JointCircuit.Circuit.Fault
import JointCircuit.Text.Blank
import JointCircuit.Text.Lines
import JointCircuit.Text.Numeral

/-!
# Reading a circuit text

The text of a circuit is a sequence of lines, of which blank ones do not count.

* The first line holds two numbers, of gates and of wires.
* The second holds the number of inputs and then the width of each.
* The third holds the same for the outputs.
* Every other line is a gate: the numbers of its inputs and outputs, its wires,
  the output last, and its keyword.

There are as many gate lines as the first line says.  Numbers are read by
`Text.number?`, words are cut at blanks.

The first line from the top that breaks a rule is reported, and in it the first
rule in the order of the checks below.  A text that ends too early is reported
at its last line.

Everything works on the lines that count, each paired with its number
(`Text.contentLines`), so the reader is a recursion on that list.
-/

namespace JointCircuit

/-- The lines that are not blank, trimmed, with their numbers. -/
def Text.contentLines (text : List Char) : List (Nat × List Char) :=
  ((numbered (lines text)).map fun l => (l.1, trim l.2)).filter fun l => l.2 ≠ []

/-- The line at which a missing line is reported. -/
def Text.lastLine (text : List Char) : Nat := max (lines text).length 1

namespace Netlist

/-- The number a word writes. -/
def readNumber (word : List Char) : Except CircuitFault Nat :=
  match Text.number? word with
  | some n => .ok n
  | none => .error (.notANumber (String.ofList word))

/-- The numbers a row of words writes. -/
def readNumbers : List (List Char) → Except CircuitFault (List Nat)
  | [] => .ok []
  | w :: ws => do
      let n ← readNumber w
      let ns ← readNumbers ws
      .ok (n :: ns)

/-- The numbers of gates and wires. -/
def readCounts (text : List Char) : Except CircuitFault (Nat × Nat) := do
  match ← readNumbers (Text.words text) with
  | [gates, wires] => .ok (gates, wires)
  | ns => .error (.headerSize ns.length)

/-- The widths of a side. -/
def readWidths (side : Side) (text : List Char) : Except CircuitFault (List Nat) := do
  match ← readNumbers (Text.words text) with
  | [] => .error (.missingWidths side)
  | declared :: widths =>
      if widths.length = declared then .ok widths
      else .error (.widthCount side declared widths.length)

/-- The gate with two operands of a keyword. -/
def binaryOp? (keyword : String) : Option BinaryOp :=
  if keyword = "AND" then some .and
  else if keyword = "XOR" then some .xor
  else if keyword = "OR" then some .or
  else none

/-- The gate with one operand of a keyword. -/
def unaryOp? (keyword : String) : Option UnaryOp :=
  if keyword = "NOT" then some .not
  else if keyword = "COPY" then some .copy
  else none

/-- The gate of a keyword with numbers of inputs and outputs and the wires. -/
def makeGate (keyword : String) (inputs outputs : Nat) (wires : List Nat) :
    Except CircuitFault Gate :=
  match binaryOp? keyword, unaryOp? keyword with
  | some op, _ =>
      match inputs, outputs, wires with
      | 2, 1, [x, y, z] => .ok (.binary op x y z)
      | _, _, _ => .error (.notBinary keyword inputs outputs)
  | none, some op =>
      match inputs, outputs, wires with
      | 1, 1, [x, z] => .ok (.unary op x z)
      | _, _, _ => .error (.notUnary keyword inputs outputs)
  | none, none => .error (.unknownGate keyword)

/-- Read a gate line with its words cut, the keyword apart from the others. -/
def readGateWords (wireCount : Nat) (keyword : String) (inputs outputs : List Char)
    (wires : List (List Char)) : Except CircuitFault Gate := do
  let inputs ← readNumber inputs
  let outputs ← readNumber outputs
  let wires ← readNumbers wires
  if wires.length = min (inputs + outputs) maxIndex then
    match wires.find? fun w => wireCount ≤ w with
    | some w => .error (.wireOutOfRange w wireCount)
    | none => makeGate keyword inputs outputs wires
  else .error (.gateWireCount inputs outputs wires.length)

/-- Read a gate line. -/
def readGate (wireCount : Nat) (text : List Char) : Except CircuitFault Gate :=
  match (Text.words text).reverse with
  | keyword :: rest =>
      match rest.reverse with
      | inputs :: outputs :: wires =>
          readGateWords wireCount (String.ofList keyword) inputs outputs wires
      | _ => .error (.incompleteGate (String.ofList text))
  | [] => .error (.incompleteGate (String.ofList text))

/-- A fault placed at a line. -/
def atLine {α : Type} (line : Nat) : Except CircuitFault α → Except FormatError α
  | .ok a => .ok a
  | .error fault => .error ⟨line, fault⟩

/-- Read the gate lines, of which `missing` out of `declared` are still to come. -/
def readGates (wireCount declared last : Nat) :
    Nat → List (Nat × List Char) → Except FormatError (List PlacedGate)
  | 0, [] => .ok []
  | missing + 1, [] => .error ⟨last, .tooFewGates declared (declared - (missing + 1))⟩
  | 0, (line, _) :: _ => .error ⟨line, .tooManyGates declared⟩
  | missing + 1, (line, text) :: rest => do
      let gate ← atLine line (readGate wireCount text)
      let gates ← readGates wireCount declared last missing rest
      .ok (⟨line, gate⟩ :: gates)

/-- Take the next line that counts, or report that it is missing. -/
def nextLine (last : Nat) (missing : CircuitFault) :
    List (Nat × List Char) → Except FormatError ((Nat × List Char) × List (Nat × List Char))
  | [] => .error ⟨last, missing⟩
  | l :: ls => .ok (l, ls)

/-- Read a netlist from the lines that count of a text with `last` lines. -/
def ofLines (last : Nat) (ls : List (Nat × List Char)) : Except FormatError Netlist := do
  let (counts, ls) ← nextLine last .missingHeader ls
  let (gateCount, wireCount) ← atLine counts.1 (readCounts counts.2)
  let (inputs, ls) ← nextLine last (.missingWidths .input) ls
  let inputWidths ← atLine inputs.1 (readWidths .input inputs.2)
  let (outputs, ls) ← nextLine last (.missingWidths .output) ls
  let outputWidths ← atLine outputs.1 (readWidths .output outputs.2)
  let gates ← readGates wireCount gateCount last gateCount ls
  .ok { wireCount, inputWidths, outputWidths, gates
        header := ⟨counts.1, inputs.1, outputs.1⟩ }

/-- Read the text of a circuit. -/
def parse (text : String) : Except FormatError Netlist :=
  ofLines (Text.lastLine text.toList) (Text.contentLines text.toList)

end Netlist

end JointCircuit

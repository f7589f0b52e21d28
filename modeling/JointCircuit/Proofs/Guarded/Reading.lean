import JointCircuit.Circuit.Grammar
import JointCircuit.Proofs.Guarded.Basic
import Mathlib.Data.List.Basic

/-!
# Reading a circuit text, guarded

The words of a gate line are taken by their position: the keyword is the last one, the
two numbers are the first two, and the wires of the gate are taken from the numbers that
are left.  Before a word or a wire is taken the line was checked to have enough of them.

`Guarded.parse_eq` says that these checks suffice: no position is beyond the end of its
row, whatever the text.
-/

namespace JointCircuit

namespace Guarded

/-! ## Gate lines -/

/-- The gate of a keyword with numbers of inputs and outputs, its wires taken by position. -/
def makeGate (keyword : String) (inputs outputs : Nat) (wires : List Nat) :
    Guarded CircuitFault Gate :=
  match Netlist.binaryOp? keyword, Netlist.unaryOp? keyword with
  | some op, _ =>
      if inputs = 2 ∧ outputs = 1 then do
        let left ← pick wires 0
        let right ← pick wires 1
        let output ← pick wires 2
        .ok (.binary op left right output)
      else .error (.refused (.notBinary keyword inputs outputs))
  | none, some op =>
      if inputs = 1 ∧ outputs = 1 then do
        let input ← pick wires 0
        let output ← pick wires 1
        .ok (.unary op input output)
      else .error (.refused (.notUnary keyword inputs outputs))
  | none, none => .error (.refused (.unknownGate keyword))

/-- Read a gate line, its words taken by position. -/
def readGate (wireCount : Nat) (text : List Char) : Guarded CircuitFault Gate :=
  match (Text.words text).getLast? with
  | none => .error (.refused (.incompleteGate (String.ofList text)))
  | some keyword =>
      let nums := (Text.words text).dropLast
      if nums.length < 2 then .error (.refused (.incompleteGate (String.ofList text)))
      else do
        let inputs ← refuse (Netlist.readNumber (← pick nums 0))
        let outputs ← refuse (Netlist.readNumber (← pick nums 1))
        let wires ← refuse (Netlist.readNumbers (← pickFrom nums 2))
        if wires.length = min (inputs + outputs) maxIndex then
          match wires.find? fun w => wireCount ≤ w with
          | some w => .error (.refused (.wireOutOfRange w wireCount))
          | none => makeGate (String.ofList keyword) inputs outputs wires
        else .error (.refused (.gateWireCount inputs outputs wires.length))

/-- A gate with the number of wires it declares has the wires its keyword asks for. -/
theorem makeGate_eq {keyword : String} {inputs outputs : Nat} {wires : List Nat}
    (h : wires.length = min (inputs + outputs) maxIndex) :
    makeGate keyword inputs outputs wires =
      refuse (Netlist.makeGate keyword inputs outputs wires) := by
  unfold makeGate Netlist.makeGate
  cases hbinary : Netlist.binaryOp? keyword with
  | some op =>
      by_cases hcounts : inputs = 2 ∧ outputs = 1
      · obtain ⟨rfl, rfl⟩ := hcounts
        obtain ⟨x, y, z, rfl⟩ := List.length_eq_three.mp h
        rfl
      · simp only [if_neg hcounts]
        split
        · exact absurd ⟨rfl, rfl⟩ hcounts
        · rfl
  | none =>
      cases hunary : Netlist.unaryOp? keyword with
      | some op =>
          by_cases hcounts : inputs = 1 ∧ outputs = 1
          · obtain ⟨rfl, rfl⟩ := hcounts
            obtain ⟨x, z, rfl⟩ := List.length_eq_two.mp h
            rfl
          · simp only [if_neg hcounts]
            split
            · exact absurd ⟨rfl, rfl⟩ hcounts
            · rfl
      | none => rfl

theorem readGate_eq (wireCount : Nat) (text : List Char) :
    readGate wireCount text = refuse (Netlist.readGate wireCount text) := by
  unfold readGate Netlist.readGate
  rcases List.eq_nil_or_concat (Text.words text) with hwords | ⟨nums, keyword, hwords⟩
  · rw [hwords]
    rfl
  · rw [hwords, List.concat_eq_append, List.getLast?_concat, List.dropLast_concat,
      List.reverse_concat]
    simp only [List.reverse_reverse]
    match nums with
    | [] => rfl
    | [_] => rfl
    | inputs :: outputs :: wires =>
        rw [if_neg (by simp)]
        refine bind_eq_refuse rfl fun i _ => bind_eq_refuse rfl fun o _ => ?_
        refine bind_eq_refuse rfl fun ws _ => ?_
        split
        · rename_i hlength
          cases ws.find? fun w => decide (wireCount ≤ w) with
          | some w => rfl
          | none => exact makeGate_eq hlength
        · rfl

/-! ## Netlists -/

/-- Read the gate lines. -/
def readGates (wireCount declared last : Nat) :
    Nat → List (Nat × List Char) → Guarded FormatError (List PlacedGate)
  | 0, [] => .ok []
  | missing + 1, [] => .error (.refused ⟨last, .tooFewGates declared (declared - (missing + 1))⟩)
  | 0, (line, _) :: _ => .error (.refused ⟨line, .tooManyGates declared⟩)
  | missing + 1, (line, text) :: rest => do
      let gate ← atLine line (readGate wireCount text)
      let gates ← readGates wireCount declared last missing rest
      .ok (⟨line, gate⟩ :: gates)

/-- Read a netlist from the lines that count of a text with `last` lines. -/
def ofLines (last : Nat) (ls : List (Nat × List Char)) : Guarded FormatError Netlist := do
  let (counts, ls) ← refuse (Netlist.nextLine last .missingHeader ls)
  let (gateCount, wireCount) ← refuse (Netlist.atLine counts.1 (Netlist.readCounts counts.2))
  let (inputs, ls) ← refuse (Netlist.nextLine last (.missingWidths .input) ls)
  let inputWidths ← refuse (Netlist.atLine inputs.1 (Netlist.readWidths .input inputs.2))
  let (outputs, ls) ← refuse (Netlist.nextLine last (.missingWidths .output) ls)
  let outputWidths ← refuse (Netlist.atLine outputs.1 (Netlist.readWidths .output outputs.2))
  let gates ← readGates wireCount gateCount last gateCount ls
  .ok { wireCount, inputWidths, outputWidths, gates
        header := ⟨counts.1, inputs.1, outputs.1⟩ }

/-- Read the text of a circuit. -/
def parse (text : String) : Guarded FormatError Netlist :=
  ofLines (Text.lastLine text.toList) (Text.contentLines text.toList)

theorem readGates_eq (wireCount declared last : Nat) :
    ∀ (missing : Nat) (ls : List (Nat × List Char)),
      readGates wireCount declared last missing ls =
        refuse (Netlist.readGates wireCount declared last missing ls)
  | 0, [] => rfl
  | _ + 1, [] => rfl
  | 0, _ :: _ => rfl
  | missing + 1, (line, text) :: rest => by
      have hgate : atLine line (readGate wireCount text) =
          refuse (Netlist.atLine line (Netlist.readGate wireCount text)) := by
        rw [readGate_eq, atLine_refuse]
      refine bind_eq_refuse hgate fun gate _ => ?_
      exact bind_eq_refuse (readGates_eq wireCount declared last missing rest) fun gates _ => rfl

/-- Reading a text takes no word and no wire beyond the end of its line. -/
theorem parse_eq (text : String) : parse text = refuse (Netlist.parse text) := by
  refine bind_eq_refuse rfl fun (counts, ls) _ => ?_
  refine bind_eq_refuse rfl fun (gateCount, wireCount) _ => ?_
  refine bind_eq_refuse rfl fun (inputs, ls) _ => bind_eq_refuse rfl fun inputWidths _ => ?_
  refine bind_eq_refuse rfl fun (outputs, ls) _ => bind_eq_refuse rfl fun outputWidths _ => ?_
  exact bind_eq_refuse (readGates_eq wireCount gateCount _ gateCount ls) fun gates _ => rfl

end Guarded

end JointCircuit

import JointCircuit.Json.Printer
import JointCircuit.Json.Shape
import JointCircuit.Circuit.Evaluation
import JointCircuit.Circuit.Grammar
import JointCircuit.Compiled.Values
import JointCircuit.Setup.Document
import JointCircuit.Session.Scenario
import JointCircuit.Session.Script
import JointCircuit.Network
import JointCircuit.Proofs.Layout.Rank
import JointCircuit.Proofs.Layout.Placement
import JointCircuit.Proofs.Codec
import JointCircuit.Proofs.TwosComplement
import JointCircuit.Proofs.Compiled.Meaning
import JointCircuit.Proofs.Compiled.Encoding
import JointCircuit.Proofs.Lowering.Mapping
import JointCircuit.Proofs.Session.Mismatch
import JointCircuit.Proofs.Traffic.Law
import JointCircuit.Proofs.Traffic.Outcome
import JointCircuit.Proofs.Compiled.Acceptance
import JointCircuit.Proofs.Compiled.WellFormed
import JointCircuit.Proofs.Compiled.WireMap
import JointCircuit.Proofs.Compiled.InputBlock
import JointCircuit.Proofs.Compiled.OutputBlock
import JointCircuit.Proofs.Session.Revealed
import JointCircuit.Proofs.Session.Receipts
import JointCircuit.Proofs.Session.Settlement
import JointCircuit.Proofs.Session.Timing
import JointCircuit.Proofs.Setup.Unambiguous
import JointCircuit.Proofs.Setup.Violations
import JointCircuit.Proofs.Circuit.Written
import JointCircuit.Proofs.Circuit.Refused
import JointCircuit.Proofs.Compiled.Decoding
import JointCircuit.Proofs.Traffic.Accord
import JointCircuit.Proofs.Session.Refusal
import JointCircuit.Proofs.Session.Wakeup
import JointCircuit.Proofs.Guarded.Values
import JointCircuit.Proofs.Lowering.Accounting
import JointCircuit.Proofs.Compiled.GateCount
import JointCircuit.Proofs.Compiled.Owners
import JointCircuit.Proofs.Compiled.ZeroWire
import JointCircuit.Proofs.Lowering.EngineText

import JointCircuit.Circuit.Netlist
import JointCircuit.IndexMap

/-!
# Running a netlist

The meaning of a circuit on its own wires: the gates run in the order of the
text, each reads its operands from the memory and overwrites its output.
-/

namespace JointCircuit

/-- The bit a gate writes. -/
def Gate.value (m : Memory) : Gate → Bool
  | .binary op x y _ => op.apply (m.read x) (m.read y)
  | .unary op x _ => op.apply (m.read x)

/-- The memory after a gate. -/
def Gate.run (g : Gate) (m : Memory) : Memory := m.set g.output (g.value m)

/-- The memory after a row of gates. -/
def runGates : List PlacedGate → Memory → Memory
  | [], m => m
  | g :: gs, m => runGates gs (g.gate.run m)

/-- The memory after all gates. -/
def Netlist.run (n : Netlist) (m : Memory) : Memory := runGates n.gates m

end JointCircuit

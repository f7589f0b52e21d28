import JointCircuit.IndexMap

/-!
# References to wires

While a circuit is being lowered, the size of its inner part is not known, and
so neither is the place of its output block.  Inputs and inner wires are placed
at once.  An output wire is a ticket instead, the number of output wires handed
out before it, and gets its place at the end.
-/

namespace JointCircuit

/-- A wire of a circuit that is being lowered. -/
inductive WireRef where
  /-- An input or inner wire at its final place. -/
  | placed (wire : Nat)
  /-- The output wire with a ticket. -/
  | output (ticket : Nat)
deriving DecidableEq, Repr, Inhabited

/-- The place of a wire once the output block is known to start at `firstOutput`. -/
def WireRef.resolve (firstOutput : Nat) : WireRef → Nat
  | .placed wire => wire
  | .output ticket => firstOutput + ticket

end JointCircuit

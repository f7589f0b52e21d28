import JointCircuit.Circuit.Fault
import JointCircuit.Lowered
import JointCircuit.Lowering.WireRef

/-!
# The walk over the gates

The gates are lowered in the order of the text.  A gate that writes a wire from
the first named output on writes an output wire, any other gate an inner wire.
Once an output wire was written, no inner wire may follow.

* A conjunction, an exclusive disjunction and a negation become one gate.
* A disjunction becomes four: both operands are inverted, their conjunction is
  formed and inverted.
* A copy to an inner wire emits nothing, the new wire is another name of its
  operand.  A copy to an output wire is the exclusive disjunction with a wire
  that is always unset, the *zero wire*.

The zero wire is the output of the first gate that combines a wire with itself
by exclusive disjunction.  If a copy comes first, such a gate is emitted for it.

`Walk` is the state between two gates.  A later gate may write a wire again.
Then the map of wires forgets the earlier one.
-/

namespace JointCircuit

/-- The state of the walk. -/
structure Walk where
  /-- The lowered wire of every wire that was covered or written. -/
  wires : IndexMap WireRef
  /-- The next inner wire. -/
  next : Nat
  /-- The number of output wires handed out. -/
  outputs : Nat
  /-- The zero wire, once there is one. -/
  zero : Option WireRef
  gates : Array (LoweredGate WireRef)
  sawOutput : Bool

namespace Walk

/-- The state before the first gate, after the inputs took the first wires. -/
def start (wires : IndexMap WireRef) (inputBits : Nat) : Walk :=
  { wires, next := inputBits, outputs := 0, zero := none, gates := #[], sawOutput := false }

/-! ## Steps -/

/-- The lowered wire of an operand. -/
def operand (w : Walk) (wire : Nat) : Except CircuitFault WireRef :=
  match w.wires.get? wire with
  | some r => .ok r
  | none => .error (.readBeforeWritten wire)

/-- Hand out an inner wire. -/
def fresh (w : Walk) : WireRef × Walk := (.placed w.next, { w with next := w.next + 1 })

/-- Hand out an output wire. -/
def freshOutput (w : Walk) : WireRef × Walk :=
  (.output w.outputs, { w with outputs := w.outputs + 1 })

/-- Hand out an output wire or an inner wire. -/
def freshFor (w : Walk) (toOutput : Bool) : WireRef × Walk :=
  if toOutput then w.freshOutput else w.fresh

/-- Emit a gate. -/
def emit (w : Walk) (g : LoweredGate WireRef) : Walk := { w with gates := w.gates.push g }

/-- Take a wire as zero wire unless there is one. -/
def offerZero (w : Walk) (r : WireRef) : Walk := { w with zero := some (w.zero.getD r) }

/-- The wire that a new zero wire is made from: the first input, or an inner wire
of its own when there is no input. -/
def zeroSource (w : Walk) (inputBits : Nat) : WireRef × Walk :=
  if 0 < inputBits then (.placed 0, w) else w.fresh

/-- The zero wire, emitting a gate for it if there is none. -/
def demandZero (w : Walk) (inputBits : Nat) : WireRef × Walk :=
  match w.zero with
  | some zero => (zero, w)
  | none =>
      let (source, w) := w.zeroSource inputBits
      let (zero, w) := w.fresh
      (zero, (w.emit (.xor source source zero)).offerZero zero)

/-- Emit a gate of two operands. -/
def emitBinary (w : Walk) (op : BinaryOp) (x y : WireRef) (toOutput : Bool) : WireRef × Walk :=
  match op with
  | .and =>
      let (z, w) := w.freshFor toOutput
      (z, w.emit (.and x y z))
  | .xor =>
      let (z, w) := w.freshFor toOutput
      let w := w.emit (.xor x y z)
      (z, if x = y then w.offerZero z else w)
  | .or =>
      let (notX, w) := w.fresh
      let (notY, w) := w.fresh
      let (both, w) := w.fresh
      let (z, w) := w.freshFor toOutput
      (z, (((w.emit (.inv x notX)).emit (.inv y notY)).emit (.and notX notY both)).emit
        (.inv both z))

/-- Emit a gate of one operand. -/
def emitUnary (w : Walk) (inputBits : Nat) (op : UnaryOp) (x : WireRef) (toOutput : Bool) :
    WireRef × Walk :=
  match op with
  | .not =>
      let (z, w) := w.freshFor toOutput
      (z, w.emit (.inv x z))
  | .copy =>
      if toOutput then
        let (zero, w) := w.demandZero inputBits
        let (z, w) := w.freshOutput
        (z, w.emit (.xor x zero z))
      else (x, w)

/-- Lower a gate to the wire it writes. -/
def lower (w : Walk) (inputBits : Nat) (toOutput : Bool) :
    Gate → Except CircuitFault (WireRef × Walk)
  | .binary op left right _ => do
      let x ← w.operand left
      let y ← w.operand right
      .ok (w.emitBinary op x y toOutput)
  | .unary op input _ => do
      let x ← w.operand input
      .ok (w.emitUnary inputBits op x toOutput)

/-- Take one gate.  Outputs start at the wire `firstOutput`. -/
def step (inputBits firstOutput : Nat) (w : Walk) (g : Gate) : Except CircuitFault Walk :=
  let toOutput := decide (firstOutput ≤ g.output)
  if !toOutput && w.sawOutput then .error (.innerAfterOutput g.output)
  else do
    let (z, w) ← { w with sawOutput := toOutput }.lower inputBits toOutput g
    .ok { w with wires := w.wires.set g.output z }

/-- Take the gates in order. -/
def run (inputBits firstOutput : Nat) : Walk → List PlacedGate → Except FormatError Walk
  | w, [] => .ok w
  | w, g :: gs =>
      match step inputBits firstOutput w g.gate with
      | .error fault => .error ⟨g.line, fault⟩
      | .ok w => run inputBits firstOutput w gs

end Walk

end JointCircuit

import JointCircuit.Session.Engine

/-!
# The plaintext engine

The engine that keeps nothing secret.  Every party sends its input bits to all
others on channel A, half of them in a first message and the rest in a second.
With the bits of all parties each evaluates the circuit on its own.  The results
are sent to all others on channel B, and an engine that receives another result
than its own fails.

A bit is sent as a byte, and a byte is a set bit only when it is one.
-/

namespace JointCircuit.Plaintext

/-- Bits as bytes. -/
def toBytes (bits : List Bool) : Bytes := bits.map fun b => if b then 1 else 0

/-- Bytes as bits. -/
def ofBytes (bytes : Bytes) : List Bool := bytes.map fun b => b == 1

/-- Send messages one after another, and give up when one is refused. -/
def sendAll (channel : Channel) : List (Nat × Bytes) → Engine → Engine
  | [], next => next
  | (peer, bytes) :: rest, next =>
      .send peer channel bytes fun
        | none => sendAll channel rest next
        | some e => .finish (.failed e.message)

/-- Receive bytes of one peer, and give up when that is refused. -/
def receiveOne (peer : Nat) (channel : Channel) (count : Nat) (next : Bytes → Engine) : Engine :=
  .receive [⟨peer, channel, count⟩] fun
    | [.ok bytes] => next bytes
    | [.error e] => .finish (.failed e.message)
    | _ => .finish (.returned [])

/-- Gather the input bits of all parties from `party` on, given those before. -/
def gather (own : Nat) (inputs : List Bool) :
    Nat → List Nat → List Bool → (List Bool → Engine) → Engine
  | _, [], before, next => next before
  | party, width :: widths, before, next =>
      if party = own then gather own inputs (party + 1) widths (before ++ inputs) next
      else receiveOne party .a width fun bytes =>
        gather own inputs (party + 1) widths (before ++ ofBytes bytes) next

/-- Compare the results of other parties with the own. -/
def compare (outputs : List Bool) : List Nat → Engine
  | [] => .finish (.returned outputs)
  | peer :: peers =>
      receiveOne peer .b outputs.length fun bytes =>
        if bytes = toBytes outputs then compare outputs peers
        else .finish (.failed s!"outputs differ from party {peer}")

/-- Exchange and compare a result. -/
def conclude (peers : List Nat) : EngineResult → Engine
  | .returned outputs =>
      sendAll .b (peers.map fun p => (p, toBytes outputs)) (compare outputs peers)
  | result => .finish result

/-- The acts of the engine. -/
def acts (c : EngineContext) : Engine :=
  let peers := otherParties c.parties c.party
  let half := c.inputs.length / 2
  let messages := peers.flatMap fun p =>
    [(p, toBytes (c.inputs.take half)), (p, toBytes (c.inputs.drop half))]
  sendAll .a messages (gather c.party c.inputs 0 c.circuit.partyBits [] fun bits =>
    conclude peers (c.evaluate bits))

end JointCircuit.Plaintext

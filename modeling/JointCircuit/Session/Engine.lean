import JointCircuit.Lowered
import JointCircuit.Session.Error

/-!
# Engines

An engine runs the lowered circuit among the parties.  All it can do is send
bytes to a peer, wait for bytes of peers, write a note, keep its access to the
channels for later, and end.  So an engine is a tree: each node is an act, and
the branches below it are what the engine does next, depending on the answer.

A `receive` waits for several receives at once and goes on when all are done.
An engine that waits for one at a time uses lists of one.  So there is no branch that
goes on after its own receive while others wait, and none that lets go of a receive
it has begun.  What such branches send and take is only covered as the use of an
access that the engine kept, whose receives are tried once.

An engine that addresses a party that is not another one gets a protocol error
as answer and may go on.
-/

namespace JointCircuit

/-- A wait for an exact number of bytes. -/
structure Receive where
  peer : Nat
  channel : Channel
  count : Nat
deriving DecidableEq, Repr, Inhabited

/-- The answer to a receive. -/
abbrev Received := Except ProtocolError Bytes

/-- How an engine ends. -/
inductive EngineResult where
  /-- With the bits of the output block. -/
  | returned (bits : List Bool)
  | failed (text : String)
  /-- By breaking down. -/
  | crashed (text : String)
deriving DecidableEq, Repr, Inhabited

/-- What an engine is told when it starts. -/
structure EngineContext where
  /-- The index of the local party. -/
  party : Nat
  parties : Nat
  inputs : List Bool
  circuit : LoweredCircuit

/-- What an engine writes down. -/
inductive Note where
  | context (c : EngineContext)
  /-- The bytes of a receive. -/
  | received (bytes : Bytes)
  | refused (e : ProtocolError)
  | gathered (answers : List Received)

/-- The acts of an engine. -/
inductive Engine where
  | send (peer : Nat) (channel : Channel) (bytes : Bytes) (next : Option ProtocolError → Engine)
  /-- Wait until all receives are done. -/
  | receive (requests : List Receive) (next : List Received → Engine)
  | note (entry : Note) (next : Engine)
  /-- Keep the access to the channels beyond the end. -/
  | keep (next : Engine)
  | finish (result : EngineResult)

/-- An engine with the numbers of parties it can run with. -/
structure EngineProgram where
  /-- The least number of parties. -/
  least : Nat
  /-- The greatest number of parties. -/
  most : Nat
  acts : EngineContext → Engine

/-- The indices of the other parties, in order. -/
def otherParties (parties party : Nat) : List Nat :=
  (List.range parties).filter fun p => p ≠ party

/-- The result of running the lowered circuit on bits, as the end of an engine. -/
def EngineContext.evaluate (c : EngineContext) (bits : List Bool) : EngineResult :=
  match c.circuit.eval bits with
  | .ok outputs => .returned outputs
  | .error (.bitCount expected found) =>
      .failed (EncodingError.message (.wrongBitCount expected found))
  | .error (.tooFewWires bits wires) =>
      .crashed s!"range end index {bits} out of range for slice of length {wires}"

end JointCircuit

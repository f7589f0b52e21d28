import JointCircuit.Session.Event

/-!
# Networks

All parties of a computation, and the way from one to the next.  A network goes
in rounds.  In a round every worker runs until it waits.  Then the messages sent
since the last round are collected party by party and delivered in that order.
A round without messages is the last.

A `Delivery` bends this.  Messages can be cut into pieces with the same tag, the
parties can be gone through backwards, and the worker of a receiver can run after
each single message.  A message can be tampered with on its way: left out,
delivered twice, or changed in one byte.  All that is to happen to a message is
applied in turn.  Changes of bytes add up, and of several orders to leave a message
out or deliver it twice the last one counts.  The worker of a receiver does not run
between two copies.  Messages are counted over all rounds, after cutting, and a
message to nobody or to a party that did not start counts too.
-/

namespace JointCircuit.Network

/-- A party in a network. -/
structure Member where
  name : String
  session : Except SessionError Session
  /-- The number of its deeds whose messages were collected. -/
  collected : Nat

/-- A message on its way. -/
structure Envelope where
  sender : String
  receiver : String
  bytes : Bytes
deriving DecidableEq, Repr

/-- What happens to a message on its way. -/
inductive Tampering where
  | leaveOut
  | duplicate
  /-- One byte is combined with a mask by exclusive disjunction, if it is there. -/
  | alter (position : Nat) (mask : UInt8)
deriving DecidableEq, Repr

/-- How messages are delivered. -/
structure Delivery where
  /-- The greatest number of payload bytes of a message, if messages are cut. -/
  pieceSize : Option Nat
  /-- Whether the parties are gone through backwards. -/
  reversed : Bool
  /-- Whether a receiver runs after each message. -/
  oneByOne : Bool
  /-- What happens to which message, by its number. -/
  tampering : List (Nat × Tampering)

/-- A network between two messages. -/
structure State where
  members : List Member
  counted : Nat
  /-- The receivers that refused a message, with their reasons. -/
  rejected : Array (String × ProtocolError)

/-- A network at its end. -/
structure Outcome where
  /-- The number of rounds with messages. -/
  rounds : Nat
  state : State

/-! ## Running and collecting -/

/-- The member with its session changed by `f`, if it has started. -/
def Member.modify (m : Member) (f : Session → Session) : Member :=
  { m with session := m.session.map f }

/-- Run every worker until it waits. -/
def settle (st : State) : State :=
  { st with members := st.members.map fun m => m.modify Session.run }

/-- The pieces of a payload, each of at most `size + 1` bytes. -/
def pieces (size : Nat) : Nat → Bytes → List Bytes
  | 0, _ => []
  | _ + 1, [] => []
  | fuel + 1, b :: bytes =>
      (b :: bytes.take size) :: pieces size fuel (bytes.drop size)

/-- Cut a message into messages with the same tag. -/
def cut (pieceSize : Option Nat) (bytes : Bytes) : List Bytes :=
  match pieceSize, bytes with
  | some size, tag :: b :: payload =>
      (pieces (size - 1) (payload.length + 1) (b :: payload)).map (tag :: ·)
  | _, _ => [bytes]

/-- The messages of a party that were not collected, cut. -/
def outgoing (pieceSize : Option Nat) (m : Member) : List Envelope :=
  match m.session with
  | .error _ => []
  | .ok s =>
      (Session.sentAmong (s.deedsSince m.collected)).flatMap fun (peer, bytes) =>
        (cut pieceSize bytes).map fun piece => ⟨m.name, s.nameOf peer, piece⟩

/-- The member with all its messages collected. -/
def markCollected (m : Member) : Member :=
  match m.session with
  | .error _ => m
  | .ok s => { m with collected := s.deeds.size }

/-- Collect the messages of all parties. -/
def collect (d : Delivery) (st : State) : List Envelope × State :=
  let order := if d.reversed then st.members.reverse else st.members
  (order.flatMap (outgoing d.pieceSize), { st with members := st.members.map markCollected })

/-! ## Tampering -/

/-- What happens to the message with a number, in the order of the list. -/
def Delivery.tamperingsOf (d : Delivery) (number : Nat) : List Tampering :=
  (d.tampering.filter fun entry => entry.1 == number).map Prod.snd

/-- The number of copies on the way after a tampering. -/
def Tampering.copies (before : Nat) : Tampering → Nat
  | .leaveOut => 0
  | .duplicate => 2
  | .alter _ _ => before

/-- The bytes of a message after a tampering. -/
def Tampering.apply (bytes : Bytes) : Tampering → Bytes
  | .alter position mask => bytes.modify position (· ^^^ mask)
  | _ => bytes

/-- What arrives of a message. -/
def arriving (bytes : Bytes) (ts : List Tampering) : List Bytes :=
  List.replicate (ts.foldl Tampering.copies 1) (ts.foldl Tampering.apply bytes)

/-! ## Delivering -/

/-- Hand messages of one sender to a session.  Returns why they were refused. -/
def handEach (sender : String) : List Bytes → Session → List ProtocolError × Session
  | [], s => ([], s)
  | bytes :: rest, s =>
      let (answer, s) := s.handleMessage sender bytes
      let (refusals, s) := handEach sender rest s
      match answer with
      | .refused reason => (reason :: refusals, s)
      | _ => (refusals, s)

/-- Hand what arrives of a message to the first member with the receiver's name.
Returns why it was refused. -/
def handOver (e : Envelope) (arrived : List Bytes) (thenRun : Bool) :
    List Member → List ProtocolError × List Member
  | [] => ([], [])
  | m :: ms =>
      if m.name = e.receiver then
        match m.session with
        | .error _ => ([], m :: ms)
        | .ok s =>
            let (refusals, s) := handEach e.sender arrived s
            let s := if thenRun then s.run else s
            (refusals, { m with session := .ok s } :: ms)
      else
        let (refusals, ms) := handOver e arrived thenRun ms
        (refusals, m :: ms)

/-- Deliver what arrives of a message, and count it. -/
def deliverOne (d : Delivery) (st : State) (e : Envelope) : State :=
  let arrived := arriving e.bytes (d.tamperingsOf st.counted)
  let (refusals, members) := handOver e arrived d.oneByOne st.members
  { members
    counted := st.counted + 1
    rejected := st.rejected ++ refusals.map fun reason => (e.receiver, reason) }

/-- Deliver messages in order. -/
def deliver (d : Delivery) (es : List Envelope) (st : State) : State :=
  es.foldl (deliverOne d) st

/-! ## Rounds -/

/-- The greatest number of rounds. -/
def maxRounds : Nat := 50

/-- Go on for at most `fuel` rounds after `done` ones. -/
def roundsFrom (d : Delivery) : Nat → Nat → State → Outcome
  | 0, done, st => ⟨done, settle st⟩
  | fuel + 1, done, st =>
      match collect d (settle st) with
      | ([], st) => ⟨done, st⟩
      | (e :: es, st) => roundsFrom d fuel (done + 1) (deliver d (e :: es) st)

/-- Run a network from its start. -/
def run (d : Delivery) (members : List Member) : Outcome :=
  roundsFrom d maxRounds 0 { members, counted := 0, rejected := #[] }

end JointCircuit.Network

import JointCircuit.Session.Run
import JointCircuit.Text.Quoted

/-!
# What happens to a session

Between two runs of its worker a session gets messages, its owner may let go of
it, and access to the channels that its engine kept can be used from outside.

A message is accepted when it comes from another party and starts with a tag.
Any other message fails the session and ends its worker, whatever it was doing.
The mailbox takes accepted messages at any time, also after the end.

`Session.step` is the transition of the session on an event, and every history
of a session is a run of events.
-/

namespace JointCircuit

/-- Something that happens to a session. -/
inductive Event where
  | run
  | message (peer : String) (bytes : Bytes)
  | drop
  /-- Bytes are sent by the access the engine kept. -/
  | keptSend (peer : Nat) (channel : Channel) (bytes : Bytes)
  /-- Bytes are asked for by the access the engine kept. -/
  | keptReceive (request : Receive)
deriving DecidableEq, Repr

/-- The answer to an event. -/
inductive Answer where
  | done
  | refused (e : ProtocolError)
  | bytes (bytes : Bytes)
  | notYet
  /-- The owner has let go of the session. -/
  | noSession
  /-- The engine has not kept its access. -/
  | noAccess
  | brokenTransport
deriving DecidableEq, Repr

namespace Session

/-- The peer with a name. -/
def peerNamed? (s : Session) (name : String) : Option Nat :=
  match s.compiled.partyIndex? name with
  | some index => if index = s.party then none else some index
  | none => none

/-- Put a message into the mailbox, or say what is wrong with it. -/
def accept (s : Session) (name : String) (bytes : Bytes) : Except ProtocolError Session :=
  match s.peerNamed? name with
  | none => .error (.unknownPeer name)
  | some peer =>
      match bytes with
      | [] => .error (.emptyMessage name)
      | b :: payload =>
          match Tag.ofByte? b with
          | none => .error (.unknownChannel name b)
          | some tag => .ok { s with mailbox := s.mailbox.push peer tag payload }

/-- Handle a message of a party. -/
def handleMessage (s : Session) (name : String) (bytes : Bytes) : Answer × Session :=
  match s.accept name bytes with
  | .ok s => (.done, s)
  | .error e => (.refused e, s.conclude (.error (.protocol e)))

/-- Let go of the session. -/
def drop (s : Session) : Session := { s.conclude (.error .stopped) with dropped := true }

/-- Send by the access the engine kept. -/
def keptSend (s : Session) (peer : Nat) (channel : Channel) (bytes : Bytes) : Answer × Session :=
  if s.isPeer peer then
    match s.transmit peer (.engine channel) bytes with
    | (s, none) => (.done, s)
    | (s, some _) => (.brokenTransport, s)
  else (.refused (.invalidParty peer), s.misaddressed peer)

/-- Receive by the access the engine kept. -/
def keptReceive (s : Session) (r : Receive) : Answer × Session :=
  if s.isPeer r.peer then
    match s.take? r.peer (.engine r.channel) r.count with
    | some (bytes, s) => (.bytes bytes, s)
    | none => (.notYet, s)
  else (.refused (.invalidParty r.peer), s.misaddressed r.peer)

/-- The answer to an event and the session after it. -/
def step (s : Session) : Event → Answer × Session
  | .run => (.done, s.run)
  | .message name bytes => if s.dropped then (.noSession, s) else s.handleMessage name bytes
  | .drop => if s.dropped then (.noSession, s) else (.done, s.drop)
  | .keptSend peer channel bytes =>
      if s.kept then s.keptSend peer channel bytes else (.noAccess, s)
  | .keptReceive request => if s.kept then s.keptReceive request else (.noAccess, s)

/-- The session after a row of events. -/
def steps : Session → List Event → Session
  | s, [] => s
  | s, e :: es => steps (s.step e).2 es

/-! ## What can be seen of a session -/

/-- The message with a tag and payload. -/
def frame (tag : Tag) (payload : Bytes) : Bytes := tag.byte :: payload

/-- The messages among deeds, with their receivers. -/
def sentAmong (ds : List Deed) : List (Nat × Bytes) :=
  ds.filterMap fun
    | .sent peer tag payload => some (peer, frame tag payload)
    | _ => none

/-- The notes among deeds. -/
def notesAmong (ds : List Deed) : List Note :=
  ds.filterMap fun
    | .noted entry => some entry
    | _ => none

/-- The deeds after the first `count`. -/
def deedsSince (s : Session) (count : Nat) : List Deed := s.deeds.toList.drop count

/-- The text that shows a session. -/
def describe (s : Session) : String :=
  let names := String.intercalate ", " (s.names.map Text.quoted)
  s!"Session \x7b party: {s.party}, names: [{names}], state: {s.stage.name} \x7d"

end Session

/-- The text that shows the access of an engine to its channels. -/
def EngineContext.describeAccess (c : EngineContext) : String :=
  s!"EngineIo \x7b party: {c.party}, parties: {c.parties} \x7d"

end JointCircuit

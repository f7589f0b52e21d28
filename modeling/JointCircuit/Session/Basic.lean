import JointCircuit.Compiled.Values
import JointCircuit.Session.Engine

/-!
# Sessions

A session is one party's part in a computation.  Its *worker* first sends the
fingerprint of the setup to every peer and waits for theirs.  Only when all of
them match does it run the engine.  The messages of the peers are put into the
mailbox whenever they come, whatever the worker is waiting for.

The session has a *stage*, which never goes back, and settles on one *result*,
which never changes.  `Session.settle` is the only place that stores a result,
and it moves to the final stage in the same step.

What the session did is kept in order as its *deeds*.  The messages it sent, the
bytes it took out of the mailbox and the notes of its engine are all read off
that record.
-/

namespace JointCircuit

/-- How far a session is. -/
inductive Stage where
  | created
  /-- The fingerprint was sent to all peers. -/
  | handshakeSent
  /-- The fingerprints of all peers match. -/
  | handshakeVerified
  | computing
  | done
  | failed
deriving DecidableEq, Repr, Inhabited

namespace Stage

/-- Decide whether a stage is final. -/
def isFinal : Stage → Bool
  | .done => true
  | .failed => true
  | _ => false

/-- The name of a stage. -/
def name : Stage → String
  | .created => "Created"
  | .handshakeSent => "HandshakeSent"
  | .handshakeVerified => "HandshakeVerified"
  | .computing => "Computing"
  | .done => "Done"
  | .failed => "Failed"

end Stage

/-- Something a session did. -/
inductive Deed where
  | sent (peer : Nat) (tag : Tag) (payload : Bytes)
  /-- It took bytes of a peer out of the mailbox. -/
  | took (peer : Nat) (tag : Tag) (bytes : Bytes)
  | started
  | noted (entry : Note)

/-- What is known of the fingerprint of a peer. -/
structure Greeting where
  peer : Nat
  /-- Whether its fingerprint matches, once it is there. -/
  verdict : Option Bool
deriving DecidableEq, Repr

/-- A receive of an engine that waits. -/
inductive Wait where
  | pending (request : Receive)
  | closed (answer : Received)

/-- What the worker of a session does when it runs next. -/
inductive Worker where
  | fresh
  /-- It looks for the fingerprints that are not there yet. -/
  | greeting (greetings : List Greeting)
  /-- It looks for the bytes its engine waits for, and goes on when all are there. -/
  | waiting (waits : List Wait) (next : List Received → Engine)
  | ended

/-- One party's part in a computation. -/
structure Session where
  compiled : Compiled
  party : Nat
  engine : Engine
  /-- The text with which an attempt to send breaks down, if it does.  Attempts are counted
  from zero. -/
  faulty : Nat → Option String
  /-- The bytes received and not yet taken. -/
  mailbox : Mailbox
  stage : Stage
  result : Option (Except SessionError Results)
  worker : Worker
  attempts : Nat
  deeds : Array Deed
  /-- Whether the engine kept its access to the channels. -/
  kept : Bool
  /-- Whether the owner let go of the session. -/
  dropped : Bool

namespace Session

/-- The names of the parties in order. -/
def names (s : Session) : List String := s.compiled.parties.map Party.name

/-- The indices of the peers in order. -/
def peers (s : Session) : List Nat := otherParties s.compiled.parties.length s.party

/-- Decide whether an index is that of another party. -/
def isPeer (s : Session) (index : Nat) : Bool :=
  index < s.compiled.parties.length && index != s.party

/-- The name of a party. -/
def nameOf (s : Session) (index : Nat) : String := s.names.getD index ""

/-! ## Stage and result -/

/-- Move to a stage, unless the session is at a final one. -/
def advance (s : Session) (stage : Stage) : Session :=
  if s.stage.isFinal then s else { s with stage }

/-- Store a result, unless there is one. -/
def settle (s : Session) (result : Except SessionError Results) : Session :=
  match s.result with
  | some _ => s
  | none =>
      let stage := match result with
        | .ok _ => .done
        | .error _ => .failed
      { s.advance stage with result := some result }

/-- End the worker. -/
def halt (s : Session) : Session := { s with worker := .ended }

/-- End the worker with a result. -/
def conclude (s : Session) (result : Except SessionError Results) : Session :=
  (s.settle result).halt

/-! ## Deeds -/

/-- Write down a deed. -/
def record (s : Session) (d : Deed) : Session := { s with deeds := s.deeds.push d }

/-- Send a message to a peer.  The second component is the text of an attempt that
breaks down, which leaves no deed. -/
def transmit (s : Session) (peer : Nat) (tag : Tag) (payload : Bytes) :
    Session × Option String :=
  let attempt := s.attempts
  let s := { s with attempts := attempt + 1 }
  match s.faulty attempt with
  | some text => (s, some text)
  | none => (s.record (.sent peer tag payload), none)

/-- Take bytes out of the mailbox, if there are enough. -/
def take? (s : Session) (peer : Nat) (tag : Tag) (count : Nat) : Option (Bytes × Session) :=
  match s.mailbox.take? peer tag count with
  | none => none
  | some (bytes, mailbox) => some (bytes, { s with mailbox }.record (.took peer tag bytes))

/-! ## Start -/

/-- Start the session of a party.  The number of parties, the name and the inputs
are checked in this order, before anything is sent. -/
def start (c : Compiled) (name : String) (values : Values) (program : EngineProgram)
    (faulty : Nat → Option String) : Except SessionError Session :=
  let parties := c.parties.length
  if parties < program.least ∨ program.most < parties then
    .error (.settings (.unsupportedPartyCount parties program.least program.most))
  else
    match c.partyIndex? name with
    | none => .error (.settings (.unknownParty name))
    | some party =>
        match c.encodeInput name values with
        | .error e => .error (.encoding e)
        | .ok inputs =>
            .ok
              { compiled := c
                party
                engine := program.acts ⟨party, parties, inputs, c.lowered⟩
                faulty
                mailbox := Mailbox.empty
                stage := .created
                result := none
                worker := .fresh
                attempts := 0
                deeds := #[]
                kept := false
                dropped := false }

end Session

end JointCircuit

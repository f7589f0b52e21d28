import JointCircuit.Session.Basic

/-!
# The worker of a session

A run of the worker goes on until it waits for bytes that are not there, or has
ended.

* The first run sends the fingerprint to the peers in the order of their indices.
  An attempt that breaks down ends the worker.
* Then the peers are gone through in order, and of each one whose fingerprint is
  still open the first 32 setup bytes are taken as soon as they are there.
* When all match, the engine runs.  Its receives are tried in order whenever the
  worker runs, and each takes its bytes when there are enough.  Trying only those
  that are notified comes to the same (`Watched.Alert.restsAt_run`).

How soon a fingerprint that does not match is noticed depends on the number of
parties.  Up to `eagerLimit` of them the first one found ends the session, even
if others are still open.  Beyond, it ends the session when the fingerprints of
all peers before it have matched.

`Session.drive` runs an engine by recursion on its tree, so a run always ends.
-/

namespace JointCircuit

/-- The greatest number of parties for which a mismatch is noticed at once. -/
def eagerLimit : Nat := 30

/-- Decide whether a greeting shows another fingerprint. -/
def Greeting.differs (g : Greeting) : Bool := g.verdict == some false

/-- Decide whether a greeting has not come. -/
def Greeting.isOpen (g : Greeting) : Bool := g.verdict == none

/-- Where a handshake stands. -/
inductive Handshake where
  | matched
  /-- Some peers have not answered. -/
  | unfinished
  | mismatch (peer : Nat)
deriving DecidableEq, Repr

/-- Where a handshake stands when any mismatch counts at once. -/
def eagerHandshake (gs : List Greeting) : Handshake :=
  match gs.find? Greeting.differs with
  | some g => .mismatch g.peer
  | none => if gs.any Greeting.isOpen then .unfinished else .matched

/-- Where a handshake stands when a mismatch counts after all peers before it. -/
def patientHandshake : List Greeting → Handshake
  | [] => .matched
  | g :: gs =>
      match g.verdict with
      | none => .unfinished
      | some false => .mismatch g.peer
      | some true => patientHandshake gs

/-- The answers of receives, once all are there. -/
def Wait.answers? : List Wait → Option (List Received)
  | [] => some []
  | .pending _ :: _ => none
  | .closed answer :: ws => (answers? ws).map (answer :: ·)

namespace Session

/-- Decide whether a mismatch is noticed at once. -/
def isEager (s : Session) : Bool := s.compiled.parties.length ≤ eagerLimit

/-! ## The handshake -/

/-- Send the fingerprint to peers in turn, until an attempt breaks down. -/
def greet : List Nat → Session → Session × Bool
  | [], s => (s, true)
  | peer :: peers, s =>
      match s.transmit peer .setup s.compiled.fingerprint.bytes with
      | (s, none) => greet peers s
      | (s, some _) => (s, false)

/-- Take the fingerprints that are there.  An eager session stops at the first one
that does not match. -/
def collect : List Greeting → Session → List Greeting × Session
  | [], s => ([], s)
  | g :: gs, s =>
      if g.isOpen then
        match s.take? g.peer .setup fingerprintSize with
        | none =>
            let (gs, s) := collect gs s
            (g :: gs, s)
        | some (bytes, s) =>
            let g := { g with verdict := some (s.compiled.fingerprint.accepts bytes) }
            if s.isEager && g.differs then (g :: gs, s)
            else
              let (gs, s) := collect gs s
              (g :: gs, s)
      else
        let (gs, s) := collect gs s
        (g :: gs, s)

/-- Where the handshake of a session stands. -/
def handshake (s : Session) (gs : List Greeting) : Handshake :=
  if s.isEager then eagerHandshake gs else patientHandshake gs

/-! ## The engine -/

/-- The result of a session whose engine returned bits: of all outputs those that
the party sees. -/
def outcome (s : Session) (bits : List Bool) : Except SessionError Results :=
  match s.compiled.decodeOutput bits with
  | .error e => .error (.encoding e)
  | .ok results =>
      let seen := (s.compiled.parties[s.party]?.map Party.outputs).getD []
      .ok (results.restrict seen.contains)

/-- End with the result of the engine. -/
def finish (s : Session) : EngineResult → Session
  | .returned bits => s.conclude (s.outcome bits)
  | .failed text => s.conclude (.error (.engineFailed text))
  | .crashed text => s.conclude (.error (.engineCrashed text))

/-- Fail because the engine addressed an index that is no other party. -/
def misaddressed (s : Session) (index : Nat) : Session :=
  s.settle (.error (.protocol (.invalidParty index)))

/-- Open receives.  One that addresses no other party is answered at once. -/
def openWaits : List Receive → Session → List Wait × Session
  | [], s => ([], s)
  | r :: rs, s =>
      if s.isPeer r.peer then
        let (ws, s) := openWaits rs s
        (.pending r :: ws, s)
      else
        let (ws, s) := openWaits rs (s.misaddressed r.peer)
        (.closed (.error (.invalidParty r.peer)) :: ws, s)

/-- Try the receives that are open, in order. -/
def tryWaits : List Wait → Session → List Wait × Session
  | [], s => ([], s)
  | .closed answer :: ws, s =>
      let (ws, s) := tryWaits ws s
      (.closed answer :: ws, s)
  | .pending r :: ws, s =>
      match s.take? r.peer (.engine r.channel) r.count with
      | none =>
          let (ws, s) := tryWaits ws s
          (.pending r :: ws, s)
      | some (bytes, s) =>
          let (ws, s) := tryWaits ws s
          (.closed (.ok bytes) :: ws, s)

/-- Run an engine until it waits or ends. -/
def drive : Engine → Session → Session
  | .send peer channel bytes next, s =>
      if s.isPeer peer then
        match s.transmit peer (.engine channel) bytes with
        | (s, none) => drive (next none) s
        | (s, some text) => s.finish (.crashed text)
      else drive (next (some (.invalidParty peer))) (s.misaddressed peer)
  | .receive requests next, s =>
      let (ws, s) := openWaits requests s
      let (ws, s) := tryWaits ws s
      match Wait.answers? ws with
      | some answers => drive (next answers) s
      | none => { s with worker := .waiting ws next }
  | .note entry next, s => drive next (s.record (.noted entry))
  | .keep next, s => drive next { s with kept := true }
  | .finish result, s => s.finish result

/-! ## Runs -/

/-- Start the engine after the handshake. -/
def startEngine (s : Session) : Session :=
  drive s.engine (((s.advance .handshakeVerified).advance .computing).record .started)

/-- Go on with the handshake. -/
def runHandshake (gs : List Greeting) (s : Session) : Session :=
  let (gs, s) := collect gs s
  match s.handshake gs with
  | .matched => s.startEngine
  | .unfinished => { s with worker := .greeting gs }
  | .mismatch peer => s.conclude (.error (.setupMismatch (s.nameOf peer)))

/-- Run the worker until it waits or has ended. -/
def run (s : Session) : Session :=
  match s.worker with
  | .fresh =>
      match greet s.peers s with
      | (s, true) =>
          runHandshake (s.peers.map fun peer => ⟨peer, none⟩) (s.advance .handshakeSent)
      | (s, false) => s.conclude (.error .stopped)
  | .greeting gs => runHandshake gs s
  | .waiting ws next =>
      let (ws, s) := tryWaits ws s
      match Wait.answers? ws with
      | some answers => drive (next answers) s
      | none => { s with worker := .waiting ws next }
  | .ended => s

end Session

end JointCircuit

import JointCircuit.Session.Event

/-!
# Registrations and notifications

A receive does not look at its queue whenever the worker runs.  It registers with the
queue first and looks at it then.  If it finds too few bytes it sleeps until it is
notified, and starts over.  A message is put into its queue first, and the receives
that are registered with the queue are notified after that, in a step of its own.  A
notification reaches those that are registered when it is given, and nothing of it is
left for later ones.

`Watched` is a session together with the registrations of its open receives and the
notifications that are due.  Its moves are single steps of the worker, of one of its
receives, or of everybody else, in any order.  So between any two steps of a receive
bytes may come, be taken by another receive, or be announced.
-/

namespace JointCircuit

/-- A receive that is not complete. -/
structure Want where
  peer : Nat
  tag : Tag
  count : Nat
deriving DecidableEq, Repr

/-- The receive of a fingerprint that has not come. -/
def Greeting.want? (g : Greeting) : Option Want :=
  if g.isOpen then some ⟨g.peer, .setup, fingerprintSize⟩ else none

/-- The receive of an engine that waits. -/
def Wait.want? : Wait → Option Want
  | .pending r => some ⟨r.peer, .engine r.channel, r.count⟩
  | .closed _ => none

namespace Worker

/-- The receive of a worker at a place, if it is not complete. -/
def wantAt? : Worker → Nat → Option Want
  | .greeting gs, place => gs[place]?.bind Greeting.want?
  | .waiting ws _, place => ws[place]?.bind Wait.want?
  | _, _ => none

/-- The receives of a worker that are not complete. -/
def wants : Worker → List Want
  | .greeting gs => gs.filterMap Greeting.want?
  | .waiting ws _ => ws.filterMap Wait.want?
  | _ => []

/-- Complete the receive at a place with the bytes it took. -/
def complete (own : Fingerprint) (place : Nat) (bytes : Bytes) : Worker → Worker
  | .greeting gs =>
      .greeting (gs.modify place fun g => { g with verdict := some (own.accepts bytes) })
  | .waiting ws next => .waiting (ws.set place (.closed (.ok bytes))) next
  | w => w

end Worker

/-! ## From receives to receives -/

namespace Session

/-- Take the bytes of the receive at a place and complete it, if there are enough. -/
def serve? (s : Session) (place : Nat) (r : Want) : Option Session :=
  match s.take? r.peer r.tag r.count with
  | none => none
  | some (bytes, s) =>
      some { s with worker := s.worker.complete s.compiled.fingerprint place bytes }

/-- Run an engine until it issues receives or ends. -/
def reach : Engine → Session → Session
  | .send peer channel bytes next, s =>
      if s.isPeer peer then
        match s.transmit peer (.engine channel) bytes with
        | (s, none) => reach (next none) s
        | (s, some text) => s.finish (.crashed text)
      else reach (next (some (.invalidParty peer))) (s.misaddressed peer)
  | .receive requests next, s =>
      let (ws, s) := openWaits requests s
      { s with worker := .waiting ws next }
  | .note entry next, s => reach next (s.record (.noted entry))
  | .keep next, s => reach next { s with kept := true }
  | .finish result, s => s.finish result

/-- Go on when the receives issued last allow it, until others are issued. -/
def proceed? (s : Session) : Option Session :=
  match s.worker with
  | .fresh =>
      match greet s.peers s with
      | (s, true) =>
          some { s.advance .handshakeSent with
            worker := .greeting (s.peers.map fun peer => ⟨peer, none⟩) }
      | (s, false) => some (s.conclude (.error .stopped))
  | .greeting gs =>
      match s.handshake gs with
      | .matched =>
          some (reach s.engine
            (((s.advance .handshakeVerified).advance .computing).record .started))
      | .unfinished => none
      | .mismatch peer => some (s.conclude (.error (.setupMismatch (s.nameOf peer))))
  | .waiting ws next =>
      match Wait.answers? ws with
      | some answers => some (reach (next answers) s)
      | none => none
  | .ended => none

/-- The queue that a message is put into. -/
def queueOf? (s : Session) : Event → Option (Nat × Tag)
  | .message name (b :: _) =>
      if s.dropped then none
      else
        match s.peerNamed? name, Tag.ofByte? b with
        | some peer, some tag => some (peer, tag)
        | _, _ => none
  | _ => none

end Session

/-! ## Watched sessions -/

/-- How far a receive is. -/
inductive Watch where
  /-- It is not registered with its queue. -/
  | unregistered
  /-- It is registered and has not looked at its queue. -/
  | looking (notified : Bool)
  /-- It is registered and found too few bytes. -/
  | sleeping (notified : Bool)
deriving DecidableEq, Repr

/-- Notify a receive, which only reaches one that is registered. -/
def Watch.notify : Watch → Watch
  | .unregistered => .unregistered
  | .looking _ => .looking true
  | .sleeping _ => .sleeping true

/-- A session, the registrations of its receives by their places, and the queues that got
bytes whose receives are not notified yet. -/
structure Watched where
  session : Session
  watches : Nat → Watch
  due : List (Nat × Tag)

/-- A move of a watched session. -/
inductive WatchMove where
  /-- The worker goes on behind its receives. -/
  | proceed
  /-- The receive at a place registers with its queue. -/
  | register (place : Nat)
  /-- The receive at a place looks at its queue, and takes its bytes or goes to sleep. -/
  | look (place : Nat)
  /-- The receive at a place starts over, being notified. -/
  | wake (place : Nat)
  /-- The receives that are registered with a queue are notified. -/
  | notify (peer : Nat) (tag : Tag)
  /-- Something else happens to the session. -/
  | happen (e : Event)
deriving DecidableEq, Repr

/-- Decide whether a move is one of the worker. -/
def WatchMove.isOwn : WatchMove → Bool
  | .notify .. => false
  | .happen _ => false
  | _ => true

namespace Watched

/-- A session none of whose receives is registered. -/
def start (s : Session) : Watched := ⟨s, fun _ => .unregistered, []⟩

/-- Change how far the receive at a place is. -/
def setWatch (w : Watched) (place : Nat) (x : Watch) : Watched :=
  { w with watches := fun i => if i = place then x else w.watches i }

/-- The registrations after the receives of a queue were notified. -/
def notified (w : Watched) (peer : Nat) (tag : Tag) (place : Nat) : Watch :=
  match w.session.worker.wantAt? place with
  | some r => if r.peer = peer ∧ r.tag = tag then (w.watches place).notify else w.watches place
  | none => w.watches place

/-- The watched session after a move, if the move is possible. -/
def move? (w : Watched) : WatchMove → Option Watched
  | .proceed =>
      match w.session.proceed? with
      | some s => some { w with session := s, watches := fun _ => .unregistered }
      | none => none
  | .register place =>
      match w.session.worker.wantAt? place, w.watches place with
      | some _, .unregistered => some (w.setWatch place (.looking false))
      | _, _ => none
  | .look place =>
      match w.session.worker.wantAt? place, w.watches place with
      | some r, .looking notified =>
          match w.session.serve? place r with
          | some s => some { w with session := s }
          | none => some (w.setWatch place (.sleeping notified))
      | _, _ => none
  | .wake place =>
      match w.session.worker.wantAt? place, w.watches place with
      | some _, .sleeping true => some (w.setWatch place .unregistered)
      | _, _ => none
  | .notify peer tag =>
      if (peer, tag) ∈ w.due then
        some { w with watches := w.notified peer tag, due := w.due.erase (peer, tag) }
      else none
  | .happen .run => none
  | .happen e =>
      some { w with
        session := (w.session.step e).2
        due := (w.session.queueOf? e).toList ++ w.due }

/-- The watched session after a row of moves, if all of them are possible. -/
def moves? : Watched → List WatchMove → Option Watched
  | w, [] => some w
  | w, m :: ms =>
      match w.move? m with
      | some w => moves? w ms
      | none => none

/-- The worker and its receives have nothing to do. -/
def AtRest (w : Watched) : Prop := ∀ m, m.isOwn = true → w.move? m = none

end Watched

end JointCircuit

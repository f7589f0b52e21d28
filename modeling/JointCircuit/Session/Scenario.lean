import JointCircuit.Session.Event

/-!
# Scenarios

A scenario is a list of moves that an observer makes against one session.  After
each move the worker runs, unless the move says that it does not.  Then the
observer writes down the reply, the stage and the result, and what was sent and
noted since the last time.  A session its owner has let go of shows no stage and
no result.
-/

namespace JointCircuit.Scenario

/-- The text of an attempt to send that breaks down. -/
def fault : String := "transport is broken"

/-- In a scenario a test says which attempts to send break down. -/
instance coeFaulty : Coe (Nat → Bool) (Nat → Option String) :=
  ⟨fun breaks attempt => if breaks attempt then some fault else none⟩

/-- What an observer does. -/
inductive Ask where
  | wait
  | event (e : Event)
  | describe
deriving DecidableEq, Repr

/-- A move of the observer. -/
structure Move where
  ask : Ask
  /-- Whether the worker runs after it. -/
  settle : Bool
deriving DecidableEq, Repr

/-- What the observer gets back. -/
inductive Reply where
  | party (index : Nat)
  | answer (a : Answer)
  | text (s : String)
deriving DecidableEq, Repr

/-- What the observer writes down after a move. -/
structure Record where
  reply : Reply
  /-- The stage, unless the session was dropped. -/
  stage : Option Stage
  /-- The result, once there is one and unless the session was dropped. -/
  result : Option (Except SessionError Results)
  /-- The messages sent since the last record, with their receivers. -/
  sent : List (String × Bytes)
  /-- The notes of the engine since the last record. -/
  notes : List Note

/-- The messages among deeds, with the names of their receivers. -/
def sentTo (s : Session) (ds : List Deed) : List (String × Bytes) :=
  (Session.sentAmong ds).map fun m => (s.nameOf m.1, m.2)

/-- The record of a session of which `seen` deeds were recorded before. -/
def record (s : Session) (seen : Nat) (reply : Reply) : Record :=
  let ds := s.deedsSince seen
  { reply
    stage := if s.dropped then none else some s.stage
    result := if s.dropped then none else s.result
    sent := sentTo s ds
    notes := Session.notesAmong ds }

/-- The reply to what an observer does and the session after it. -/
def Ask.perform (s : Session) : Ask → Reply × Session
  | .wait => (.answer .done, s)
  | .event e =>
      let (a, s) := s.step e
      (.answer a, s)
  | .describe => (if s.dropped then .answer .noSession else .text s.describe, s)

/-- The records of a row of moves, `seen` deeds having been recorded before. -/
def playFrom (seen : Nat) : Session → List Move → List Record
  | _, [] => []
  | s, m :: ms =>
      let (reply, s) := m.ask.perform s
      let s := if m.settle then s.run else s
      record s seen reply :: playFrom s.deeds.size s ms

/-- The records of a scenario, the first one of the session before any move. -/
def play (s : Session) (ms : List Move) : List Record :=
  record s 0 (.party s.party) :: playFrom s.deeds.size s ms

end JointCircuit.Scenario

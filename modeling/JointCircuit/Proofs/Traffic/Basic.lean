import JointCircuit.Session.Event
import Mathlib.Logic.Function.Basic

/-!
# Free traffic

Sessions that send messages to each other, with nothing imposed on the order of things
but that the messages from one session to one name are delivered in the order they were
sent.  What happens next is a *move*: the worker of a session runs, the oldest message
from one session to another is delivered, or a message on its way is cut in two.

A message is addressed to a name and reaches the session of the party with this name.
One to a name without a session stays on its way.
-/

namespace JointCircuit

namespace Session

/-- The name of the party. -/
def ownName (s : Session) : String := s.nameOf s.party

/-- The messages to a name among deeds. -/
def mailTo (s : Session) (ds : List Deed) (name : String) : List Bytes :=
  (sentAmong ds).filterMap fun m => if s.nameOf m.1 = name then some m.2 else none

end Session

/-- Sessions, and the messages on their way. -/
structure Traffic (ι : Type) where
  session : ι → Session
  /-- The messages on their way from a session to a name, the oldest first. -/
  flight : ι → String → List Bytes

namespace Traffic

/-- What can happen next. -/
inductive Move (ι : Type) where
  | run (i : ι)
  /-- The oldest message from one session to another is delivered. -/
  | deliver (i j : ι)
  /-- A message from a session to a name is cut behind the first `size` bytes of its
  payload. -/
  | cut (i : ι) (name : String) (number size : Nat)

/-- Cut the message with a number into two messages with the same tag. -/
def cutAt (size : Nat) : Nat → List Bytes → List Bytes
  | _, [] => []
  | 0, [] :: ms => [] :: ms
  | 0, (b :: payload) :: ms => (b :: payload.take size) :: (b :: payload.drop size) :: ms
  | number + 1, m :: ms => m :: cutAt size number ms

variable {ι : Type} [DecidableEq ι]

/-- Run a worker, and put what it sent on its way. -/
def run (t : Traffic ι) (i : ι) : Traffic ι :=
  let s := (t.session i).run
  let ds := s.deedsSince (t.session i).deeds.size
  { session := Function.update t.session i s
    flight := Function.update t.flight i fun name => t.flight i name ++ s.mailTo ds name }

@[simp] theorem run_session_self (t : Traffic ι) (i : ι) :
    (t.run i).session i = (t.session i).run :=
  Function.update_self i _ _

theorem run_session_of_ne (t : Traffic ι) {i j : ι} (h : j ≠ i) :
    (t.run i).session j = t.session j :=
  Function.update_of_ne h _ _

theorem run_flight_of_ne (t : Traffic ι) {i j : ι} (h : j ≠ i) :
    (t.run i).flight j = t.flight j :=
  Function.update_of_ne h _ _

/-- Deliver the oldest message from one session to another, if there is one. -/
def deliver (t : Traffic ι) (i j : ι) : Traffic ι :=
  let name := (t.session j).ownName
  match t.flight i name with
  | [] => t
  | m :: ms =>
      { session := Function.update t.session j
          ((t.session j).step (.message (t.session i).ownName m)).2
        flight := Function.update t.flight i (Function.update (t.flight i) name ms) }

/-- The traffic after a move. -/
def step (t : Traffic ι) : Move ι → Traffic ι
  | .run i => t.run i
  | .deliver i j => t.deliver i j
  | .cut i name number size =>
      { t with
        flight := Function.update t.flight i
          (Function.update (t.flight i) name (cutAt size number (t.flight i name))) }

/-- The traffic after a schedule. -/
def steps : Traffic ι → List (Move ι) → Traffic ι
  | t, [] => t
  | t, m :: ms => steps (t.step m) ms

/-- The traffic before any message. -/
def start (session : ι → Session) : Traffic ι := ⟨session, fun _ _ => []⟩

/-- Nothing is on its way to a session, and no worker has anything left to do. -/
def Quiet (t : Traffic ι) : Prop :=
  (∀ i j, t.flight i (t.session j).ownName = []) ∧ ∀ i, (t.session i).run = t.session i

end Traffic

end JointCircuit

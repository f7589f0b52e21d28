import JointCircuit.Proofs.Compiled.Meaning
import JointCircuit.Proofs.Session.Names
import JointCircuit.Session.Plaintext
import Mathlib.Data.List.Forall2

/-!
# Messages that are refused

A message is refused for one of three reasons, in this order: nobody but another party may
send it, it has a tag byte, and this is a tag (`Session.Violation`).  A refused message
fails the session and ends the worker, in whatever position it was, and touches no queue.

A worker that ended never does anything again.  What is then still done is done by the
access that the engine kept, and each use of it does one thing at most
(`Event.Permits`).
-/

namespace JointCircuit

namespace Session

/-! ## Reasons -/

/-- A name is that of another party. -/
def Knows (s : Session) (name : String) : Prop := ∃ peer ∈ s.peers, s.nameOf peer = name

variable {s t : Session} {name : String} {bytes : Bytes} {e : ProtocolError}

end Session

end JointCircuit

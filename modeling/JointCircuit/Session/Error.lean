import JointCircuit.Lowering.Encoding
import JointCircuit.Session.Channel
import JointCircuit.Setup.Check
import JointCircuit.Text.Hex

/-!
# What can go wrong in a session

A message may break the rules of the protocol, and so may an engine that
addresses a party that is not another one.  A session ends with one error at
most.
-/

namespace JointCircuit

/-- A violation of the rules between parties. -/
inductive ProtocolError where
  | unknownPeer (name : String)
  /-- A message had no tag byte. -/
  | emptyMessage (peer : String)
  /-- A message had a tag byte that is no tag. -/
  | unknownChannel (peer : String) (tag : UInt8)
  /-- The engine addressed an index that is no other party. -/
  | invalidParty (index : Nat)
deriving DecidableEq, Repr, Inhabited

/-- The message of a protocol error. -/
def ProtocolError.message : ProtocolError → String
  | .unknownPeer name => s!"received a message from unknown party `{name}`"
  | .emptyMessage peer => s!"received an empty message from `{peer}`"
  | .unknownChannel peer tag =>
      s!"received a message from `{peer}` with unknown channel tag 0x{Text.hex [tag]}"
  | .invalidParty index => s!"party index {index} does not refer to another party"

/-- Why a session could not start or ended without an output. -/
inductive SessionError where
  | settings (e : SettingsError)
  | encoding (e : EncodingError)
  | protocol (e : ProtocolError)
  | setupMismatch (peer : String)
  | engineFailed (text : String)
  | engineCrashed (text : String)
  | stopped
deriving Inhabited

/-- The message of a session error. -/
def SessionError.message : SessionError → String
  | .settings e => e.message
  | .encoding e => e.message
  | .protocol e => e.message
  | .setupMismatch peer =>
      s!"the setup hash of party `{peer}` does not match, all parties must use the same circuit "
        ++ "and settings"
  | .engineFailed text => s!"engine error: {text}"
  | .engineCrashed text => s!"engine error: engine panicked: {text}"
  | .stopped => "the session was stopped before it produced an output"

end JointCircuit

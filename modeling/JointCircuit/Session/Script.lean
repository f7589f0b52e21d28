import JointCircuit.Session.Plaintext

/-!
# Scripted engines

An engine that follows a fixed list of steps.  Each step that communicates notes
what it got.  A refused step ends the engine with the message of the refusal,
unless the script says to go on.  When the steps are used up the engine returns
no bits.
-/

namespace JointCircuit.Script

/-- A step of a script. -/
inductive Step where
  | send (peer : Nat) (channel : Channel) (bytes : Bytes) (ignore : Bool)
  | receive (request : Receive) (ignore : Bool)
  | join (requests : List Receive)
  | info
  | stash
  | return (bits : List Bool)
  /-- End with the outputs of the circuit on bits. -/
  | evaluate (bits : List Bool)
  | fail (text : String)
  /-- End by breaking down, with or without a text. -/
  | crash (text : Option String)
  /-- Go on as the plaintext engine. -/
  | plain

/-- The text of a breakdown that brings none. -/
def unknownCrash : String := "unknown panic"

/-- Note a refusal and end, or go on if it is to be ignored. -/
def refused (ignore : Bool) (e : ProtocolError) (next : Engine) : Engine :=
  .note (.refused e) (if ignore then next else .finish (.failed e.message))

/-- The acts of a script. -/
def acts (c : EngineContext) : List Step → Engine
  | [] => .finish (.returned [])
  | .send peer channel bytes ignore :: steps =>
      .send peer channel bytes fun
        | none => acts c steps
        | some e => refused ignore e (acts c steps)
  | .receive request ignore :: steps =>
      .receive [request] fun
        | [.error e] => refused ignore e (acts c steps)
        | [.ok bytes] => .note (.received bytes) (acts c steps)
        | _ => acts c steps
  | .join requests :: steps =>
      .receive requests fun answers => .note (.gathered answers) (acts c steps)
  | .info :: steps => .note (.context c) (acts c steps)
  | .stash :: steps => .keep (acts c steps)
  | .return bits :: _ => .finish (.returned bits)
  | .evaluate bits :: _ => .finish (c.evaluate bits)
  | .fail text :: _ => .finish (.failed text)
  | .crash text :: _ => .finish (.crashed (text.getD unknownCrash))
  | .plain :: _ => Plaintext.acts c

end JointCircuit.Script

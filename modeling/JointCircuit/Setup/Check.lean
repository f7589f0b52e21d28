import JointCircuit.Setup.Basic

/-!
# Checking a setup

The parties fit a circuit when there are at least two, their names are distinct,
every input of the circuit is provided by exactly one party exactly once, and
the outputs the parties see are the outputs of the circuit.

The first violation is reported.  The parties are gone through in order: a name
that came before, then the inputs in the order they are listed, then the outputs.
After them come the inputs nobody provides and the outputs nobody sees, smallest
name first.

The checks recurse on the lists and carry the names that came before.
-/

namespace JointCircuit

/-- Why parties do not fit a circuit or a computation. -/
inductive SettingsError where
  | tooFewParties (found : Nat)
  | duplicateParty (name : String)
  | unknownParty (name : String)
  | unknownInput (party name : String)
  | duplicateInput (name : String)
  | unassignedInput (name : String)
  | unknownOutput (party name : String)
  | undeclaredOutput (name : String)
  /-- The engine cannot run with this many parties. -/
  | unsupportedPartyCount (parties least most : Nat)
deriving DecidableEq, Repr, Inhabited

/-- The message of a settings error. -/
def SettingsError.message : SettingsError → String
  | .tooFewParties found => s!"at least 2 parties are required, found {found}"
  | .duplicateParty name => s!"party `{name}` is listed more than once"
  | .unknownParty name => s!"unknown party `{name}`"
  | .unknownInput party name =>
      s!"party `{party}` declares input `{name}`, which the circuit does not have"
  | .duplicateInput name => s!"input `{name}` is declared more than once"
  | .unassignedInput name => s!"input `{name}` is not provided by any party"
  | .unknownOutput party name =>
      s!"party `{party}` declares output `{name}`, which the circuit does not have"
  | .undeclaredOutput name => s!"output `{name}` is not revealed to any party"
  | .unsupportedPartyCount parties least most =>
      s!"the engine supports {least} to {most} parties, found {parties}"

namespace Setup

/-- Check the inputs of a party, `seen` being those that came before. -/
def checkInputs (circuit : Circuit) (party : String) :
    List String → List String → Except SettingsError Unit
  | _, [] => .ok ()
  | seen, name :: names =>
      if circuit.inputs.contains name = false then .error (.unknownInput party name)
      else if seen.contains name then .error (.duplicateInput name)
      else checkInputs circuit party (name :: seen) names

/-- Check the outputs of a party. -/
def checkOutputs (circuit : Circuit) (party : String) : List String → Except SettingsError Unit
  | [] => .ok ()
  | name :: names =>
      if circuit.outputs.contains name then checkOutputs circuit party names
      else .error (.unknownOutput party name)

/-- Check the parties one after another, `names` and `inputs` being those of the
parties that came before. -/
def checkParties (circuit : Circuit) :
    List String → List String → List Party → Except SettingsError Unit
  | _, _, [] => .ok ()
  | names, inputs, p :: ps =>
      if names.contains p.name then .error (.duplicateParty p.name)
      else do
        checkInputs circuit p.name inputs p.inputs
        checkOutputs circuit p.name p.outputs
        checkParties circuit (p.name :: names) (p.inputs ++ inputs) ps

/-- Check that the names of a table all occur in a list. -/
def checkCovered (names listed : List String) (fault : String → SettingsError) :
    Except SettingsError Unit :=
  match names.find? fun n => !listed.contains n with
  | some name => .error (fault name)
  | none => .ok ()

/-- Check that the parties fit the circuit. -/
def check (s : Setup) : Except SettingsError Unit :=
  if s.parties.length < 2 then .error (.tooFewParties s.parties.length)
  else do
    checkParties s.circuit [] [] s.parties
    checkCovered s.circuit.inputs.keys (s.parties.flatMap Party.inputs) .unassignedInput
    checkCovered s.circuit.outputs.keys (s.parties.flatMap Party.outputs) .undeclaredOutput

end Setup

end JointCircuit

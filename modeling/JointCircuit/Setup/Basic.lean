import JointCircuit.NameTable

/-!
# Setups

What the parties of a computation have to agree on: a circuit, given by its text
and the names of its values, and the list of the parties with the inputs each
provides and the outputs each sees.  The position of a party in the list is its
index.
-/

namespace JointCircuit

/-- A circuit with the names of its values. -/
structure Circuit where
  text : String
  /-- The first wire of every input. -/
  inputs : NameTable Nat
  /-- The first wire of every output. -/
  outputs : NameTable Nat
deriving DecidableEq

/-- What one party provides and sees. -/
structure Party where
  /-- The name the party is addressed by. -/
  name : String
  inputs : List String
  outputs : List String
deriving DecidableEq, Repr, Inhabited

/-- A circuit with the parties that evaluate it. -/
structure Setup where
  circuit : Circuit
  parties : List Party
deriving DecidableEq

/-- The index of the party with a name. -/
def partyIndex? (parties : List Party) (name : String) : Option Nat :=
  parties.findIdx? fun p => p.name == name

end JointCircuit

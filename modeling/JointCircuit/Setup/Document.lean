import JointCircuit.Json.Shape
import JointCircuit.Setup.Basic

/-!
# Setups as documents

The JSON form of circuits, parties and values: the shape of each document, and
the way from a value of that shape to the library's types and back.
-/

namespace JointCircuit

open Json (Shape)

/-- The name tables of a circuit. -/
def namesShape : Shape :=
  .record
    [ ("input_name_to_wire_index", .table .index)
    , ("output_name_to_wire_index", .table .index) ]

/-- A circuit: its text and its name tables. -/
def circuitShape : Shape := .record [("bristol", .text), ("info", namesShape)]

/-- A party. -/
def partyShape : Shape :=
  .record [("name", .text), ("inputs", .list .text), ("outputs", .list .text)]

/-- The parties of a setup. -/
def partiesShape : Shape := .list partyShape

/-- Named values of any form. -/
def valuesShape : Shape := .table .any

/-! ## From values of a shape -/

/-- The circuit in a document. -/
def Circuit.ofJson? (j : Json) : Option Circuit := do
  let text ← (← j.member? "bristol").text?
  let info ← j.member? "info"
  let inputs ← (← info.member? "input_name_to_wire_index").tableOf? Json.nat?
  let outputs ← (← info.member? "output_name_to_wire_index").tableOf? Json.nat?
  return { text, inputs, outputs }

/-- The party in a document. -/
def Party.ofJson? (j : Json) : Option Party := do
  let name ← (← j.member? "name").text?
  let inputs ← (← j.member? "inputs").listOf? Json.text?
  let outputs ← (← j.member? "outputs").listOf? Json.text?
  return { name, inputs, outputs }

/-- The parties in a document. -/
def partiesOfJson? (j : Json) : Option (List Party) := j.listOf? Party.ofJson?

/-- The values in a document. -/
def valuesOfJson? (j : Json) : Option (NameTable Json) := j.tableOf? some

/-! ## To values of a shape -/

/-- The document of a table of wires. -/
def wiresToJson (t : NameTable Nat) : Json := .object (t.map Json.nat)

/-- The document of the name tables of a circuit. -/
def Circuit.namesToJson (c : Circuit) : Json :=
  .ofMembers
    [ ("input_name_to_wire_index", wiresToJson c.inputs)
    , ("output_name_to_wire_index", wiresToJson c.outputs) ]

/-- The document of a circuit. -/
def Circuit.toJson (c : Circuit) : Json :=
  .ofMembers [("bristol", .str c.text), ("info", c.namesToJson)]

/-- The document of a party. -/
def Party.toJson (p : Party) : Json :=
  .ofMembers
    [ ("name", .str p.name), ("inputs", .arr (p.inputs.map .str))
    , ("outputs", .arr (p.outputs.map .str)) ]

/-- The document of the parties of a setup. -/
def partiesToJson (ps : List Party) : Json := .arr (ps.map Party.toJson)

end JointCircuit

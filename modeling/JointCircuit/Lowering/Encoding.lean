import JointCircuit.Bits
import JointCircuit.Json.Printer
import JointCircuit.Lowered
import JointCircuit.Lowering.Layout

/-!
# Values on slots

The inputs of a party are a table of JSON values, and each has to be an integer.
They are encoded slot by slot, in the order of the slots, so the bits of a party
are the concatenation of the bits of its inputs.  The table has to have exactly
the names of the slots.
-/

namespace JointCircuit

/-- Named values as they are given by a party. -/
abbrev Values := NameTable Json

/-- Named results. -/
abbrev Results := NameTable Nat

/-- Why values could not be turned into bits or bits into values. -/
inductive EncodingError where
  | unknownParty (name : String)
  | missingInput (party name : String)
  | unexpectedInput (party name : String)
  | notAnInteger (name : String) (value : Json)
  | wrongBitCount (expected found : Nat)
  | wrongPartyCount (expected found : Nat)
  /-- An output reads a wire that has no place in the output block. -/
  | unmappedOutputWire (name : String) (wire : Nat)
  /-- An output has a bit above the lowest 64. -/
  | outputOverflow (name : String)
deriving Inhabited

/-- The message of an encoding error. -/
def EncodingError.message : EncodingError → String
  | .unknownParty name => s!"unknown party `{name}`"
  | .missingInput party name => s!"party `{party}` did not provide input `{name}`"
  | .unexpectedInput party name => s!"party `{party}` provided undeclared input `{name}`"
  | .notAnInteger name value => s!"input `{name}` must be an integer, found {value.compact}"
  | .wrongBitCount expected found => s!"expected {expected} bits, found {found}"
  | .wrongPartyCount expected found => s!"expected inputs of {expected} parties, found {found}"
  | .unmappedOutputWire name wire =>
      s!"output `{name}` reads wire {wire}, which is not part of the output block"
  | .outputOverflow name => s!"output `{name}` does not fit into 64 bits"

/-- The bits of a value on a slot. -/
def Slot.encode (s : Slot) (value : Json) : Except EncodingError (List Bool) :=
  match value.int? with
  | some v => .ok (Bits.encode (BitVec.ofInt 128 v) s.width)
  | none => .error (.notAnInteger s.name value)

/-- The bits of the values of a party on a row of slots. -/
def encodeSlots (party : String) (values : Values) : List Slot → Except EncodingError (List Bool)
  | [] => .ok []
  | s :: ss =>
      match values.find? s.name with
      | none => .error (.missingInput party s.name)
      | some value => do
          let bits ← s.encode value
          let rest ← encodeSlots party values ss
          .ok (bits ++ rest)

/-- The bits of the values of a party, which have exactly the names of the slots. -/
def encodeValues (party : String) (slots : List Slot) (values : Values) :
    Except EncodingError (List Bool) :=
  match values.keys.find? fun k => !slots.any fun s => s.name == k with
  | some name => .error (.unexpectedInput party name)
  | none => encodeSlots party values slots

end JointCircuit

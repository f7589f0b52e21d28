import JointCircuit.Decimal.Binary64
import JointCircuit.NameTable

/-!
# JSON values

The values that circuits, settings and inputs are written in.  A number is an
integer when it is written without a point and without an exponent and lies
between `-2^63` and `2^64 - 1`.  Any other number is binary64, and so is `-0`,
which is the one integer text with a sign that an integer cannot keep.

The members of an object stand in the order of their names, each name once:
objects are built from name tables by `Json.object`.
-/

namespace JointCircuit

/-- A JSON value. -/
inductive Json where
  | null
  | bool (b : Bool)
  | int (n : Int)
  | float (x : Binary64)
  | str (s : String)
  | arr (items : List Json)
  /-- An object, its members in the order of their names. -/
  | obj (members : List (String × Json))
deriving Inhabited

namespace Json

/-- The object with the entries of a table as members. -/
def object (t : NameTable Json) : Json := .obj t.entries

/-- The object with the members given, of which the last one of a name counts. -/
def ofMembers (ms : List (String × Json)) : Json := object (NameTable.ofList ms)

/-- A natural number as a value. -/
def nat (n : Nat) : Json := .int n

/-- The member of an object with a name. -/
def member? : Json → String → Option Json
  | .obj ms, k => ms.lookup k
  | _, _ => none

/-- The text of a string value. -/
def text? : Json → Option String
  | .str s => some s
  | _ => none

/-- The truth value of a Boolean value. -/
def bool? : Json → Option Bool
  | .bool b => some b
  | _ => none

/-- The integer of an integer value, which fits into 64 bits with a sign or without one. -/
def int? : Json → Option Int
  | .int n => if -0x8000000000000000 ≤ n ∧ n ≤ 0xffffffffffffffff then some n else none
  | _ => none

/-- The natural number of an integer value that is not negative. -/
def nat? : Json → Option Nat
  | .int (.ofNat n) => some n
  | _ => none

/-- The items of a list value. -/
def items? : Json → Option (List Json)
  | .arr xs => some xs
  | _ => none

/-- The items of a list value, each read by `f`. -/
def listOf? {α : Type} (f : Json → Option α) (j : Json) : Option (List α) := do
  (← j.items?).mapM f

/-- The members of an object, each read by `f`. -/
def tableOf? {α : Type} (f : Json → Option α) : Json → Option (NameTable α)
  | .obj ms => do
      let es ← ms.mapM fun m => (f m.2).map fun v => (m.1, v)
      return NameTable.ofList es
  | _ => none

end Json

end JointCircuit

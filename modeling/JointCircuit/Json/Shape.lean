import JointCircuit.Json.Read.Values

/-!
# Shapes of documents

A shape says what a document has to look like: a text, an index, a list, a table
from names to values of one shape, a record with fixed fields, or anything.
Reading by a shape returns a value that has the shape, and fails at the first
place from the left where the text departs from it.

A record may be written as an object, with its fields in any order, or as a list
of its fields in order.  Every field has to be there exactly once.  Fields that
the record does not have are skipped.  In a table the last value of a name
counts.

`Shape.parse` reads a whole text.
-/

namespace JointCircuit.Json

/-- The form of a document. -/
inductive Shape where
  | text
  /-- An integer within the range of indices. -/
  | index
  | list (item : Shape)
  /-- An object from names to values of one shape. -/
  | table (item : Shape)
  /-- An object with fixed fields, in the order they have as a list. -/
  | record (fields : List (String × Shape))
  | any

/-- The failure at a value of another form.  A bracket or brace departs from the
shape at once, a scalar only after it has been read. -/
def departure (s : List Char) : Fault :=
  match s with
  | '[' :: _ => .mismatch
  | '{' :: _ => .mismatch
  | s =>
      match scalar strict s with
      | .error fault => fault
      | .ok _ => .mismatch

/-- Read a string. -/
def readText : Read String := fun s =>
  match skipBlanks s with
  | '"' :: s => stringRest unicodeEscape s
  | s => .error (departure s)

/-- Read an integer that is not negative. -/
def readIndex : Read Nat := fun s => do
  let s := skipBlanks s
  let (v, rest) ← match s with
    | '-' :: s => numberRest true s
    | c :: _ => if Text.isDigit c then numberRest false s else .error (departure s)
    | [] => .error .truncated
  match v.nat? with
  | some n => .ok (n, rest)
  | none => .error .mismatch

/-- Read a list. -/
def readList {α : Type} (item : Read α) : Read (List α) := fun s =>
  match skipBlanks s with
  | '[' :: s => listRest item s
  | s => .error (departure s)

/-- Read an object as a table. -/
def readTable {α : Type} (item : Read α) : Read (NameTable α) := fun s =>
  match skipBlanks s with
  | '{' :: s => objectRest unicodeEscape (tableMember item) NameTable.empty s
  | s => .error (departure s)

/-! ## Records -/

/-- A field with the way to read it. -/
abbrev Field := String × Read Json

/-- The fields of a record written as a list, from the one given on. -/
def positional : Bool → List Field → Read (List (String × Json))
  | _, [], s =>
      match skipBlanks s with
      | [] => .error .truncated
      | ']' :: s => .ok ([], s)
      | _ :: _ => .error .malformed
  | first, (name, read) :: fields, s => do
      match ← nextItem first s with
      | .close _ => .error .mismatch
      | .element s => do
          let (v, s) ← read s
          let (vs, s) ← positional false fields s
          .ok ((name, v) :: vs, s)

/-- Gather a field of a record written as an object.  A field that came before is
refused at its name. -/
def fieldMember (fields : List Field) (t : NameTable Json) (name : String) :
    Except Fault (Read (NameTable Json)) :=
  match fields.lookup name with
  | none => .ok fun s => do
      let (_, s) ← skipValue s
      .ok (t, s)
  | some read =>
      if t.contains name then .error .mismatch
      else .ok fun s => do
        let (v, s) ← read s
        .ok (t.insert name v, s)

/-- Read a record. -/
def readRecord (fields : List Field) : Read Json := fun s =>
  match skipBlanks s with
  | '[' :: s => do
      let (vs, s) ← positional true fields s
      .ok (.ofMembers vs, s)
  | '{' :: s => do
      let (t, s) ← objectRest unicodeEscape (fieldMember fields) NameTable.empty s
      if fields.all fun f => t.contains f.1 then .ok (.object t, s) else .error .mismatch
  | s => .error (departure s)

/-! ## Reading by a shape -/

mutual

/-- Read a value of a shape, with room for `capacity` open brackets and braces. -/
def Shape.read (capacity : Nat) : Shape → Read Json
  | .text => fun s => do
      let (t, s) ← readText s
      .ok (.str t, s)
  | .index => fun s => do
      let (n, s) ← readIndex s
      .ok (.nat n, s)
  | .list item => fun s => do
      let (xs, s) ← readList (Shape.read (capacity - 1) item) s
      .ok (.arr xs, s)
  | .table item => fun s => do
      let (t, s) ← readTable (Shape.read (capacity - 1) item) s
      .ok (.object t, s)
  | .record fields => readRecord (Shape.readFields (capacity - 1) fields)
  | .any => value strict capacity

/-- The fields of a record with the way to read each. -/
def Shape.readFields (capacity : Nat) : List (String × Shape) → List Field
  | [] => []
  | (name, shape) :: fields => (name, Shape.read capacity shape) :: Shape.readFields capacity fields

end

/-- The greatest nesting of a document. -/
def maxNesting : Nat := 127

/-- Read a document of a shape.  Nothing but blanks may follow it. -/
def Shape.parse (shape : Shape) (text : String) : Except Fault Json := do
  let (v, rest) ← shape.read maxNesting text.toList
  if skipBlanks rest = [] then .ok v else .error .malformed

end JointCircuit.Json

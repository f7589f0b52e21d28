import JointCircuit.Json.Read.Numbers
import JointCircuit.Json.Read.Strings

/-!
# Reading values

Two readers of values differ in their leaves only.  `strict` gives numbers and
strings their meaning, so a number out of range or half a surrogate pair is
malformed.  `lenient` only checks the form.  It is used for members nobody asks
for.

Nesting is bounded by a capacity: every bracket and brace takes one off, and a
text that needs more than there is is malformed.  The recursion of `value` is on
the capacity.  The loops over items and members are bounded by the length of the
text, of which every round takes at least one character.
-/

namespace JointCircuit.Json

/-! ## Scalars -/

/-- What two readers may differ in. -/
structure Leaves where
  /-- The character of an escape with hexadecimal digits. -/
  unicode : Read Char
  /-- A number after its sign, which is negative or not. -/
  number : Bool → Read Json

/-- Numbers and characters have to mean something. -/
def strict : Leaves := ⟨unicodeEscape, numberRest⟩

/-- Numbers and characters have to have the right form only. -/
def lenient : Leaves := ⟨anyUnicodeEscape, fun _ => skipNumber⟩

/-- A value that is neither a list nor an object. -/
def scalar (leaves : Leaves) : Read Json
  | [] => .error .truncated
  | 'n' :: s => do .ok (.null, ← expect ['u', 'l', 'l'] s)
  | 't' :: s => do .ok (.bool true, ← expect ['r', 'u', 'e'] s)
  | 'f' :: s => do .ok (.bool false, ← expect ['a', 'l', 's', 'e'] s)
  | '"' :: s => do
      let (t, s) ← stringRest leaves.unicode s
      .ok (.str t, s)
  | '-' :: s => leaves.number true s
  | c :: s => if Text.isDigit c then leaves.number false (c :: s) else .error .malformed

/-! ## Lists and objects -/

/-- What comes next in a list or object. -/
inductive Next where
  /-- Another element, which the text starts with. -/
  | element (s : List Char)
  /-- The closing bracket or brace, and the text after it. -/
  | close (s : List Char)

/-- Go to the next item of a list, over the comma when it is not the first. -/
def nextItem (first : Bool) (s : List Char) : Except Fault Next :=
  match skipBlanks s with
  | [] => .error .truncated
  | ']' :: s => .ok (.close s)
  | c :: s =>
      if first then .ok (.element (c :: s))
      else if c = ',' then
        match skipBlanks s with
        | [] => .error .truncated
        | ']' :: _ => .error .malformed
        | s => .ok (.element s)
      else .error .malformed

/-- The items of a list after its opening bracket. -/
def items {α : Type} (item : Read α) : Bool → Nat → Read (List α)
  | _, 0, _ => .error .truncated
  | first, fuel + 1, s => do
      match ← nextItem first s with
      | .close s => .ok ([], s)
      | .element s => do
          let (x, s) ← item s
          let (xs, s) ← items item false fuel s
          .ok (x :: xs, s)

/-- A list after its opening bracket. -/
def listRest {α : Type} (item : Read α) : Read (List α) := fun s => items item true (s.length + 1) s

/-- Go to the next name of an object, behind its opening quote. -/
def nextName (first : Bool) (s : List Char) : Except Fault Next :=
  match skipBlanks s with
  | [] => .error .truncated
  | '}' :: s => .ok (.close s)
  | '"' :: s => if first then .ok (.element s) else .error .malformed
  | ',' :: s =>
      if first then .error .malformed
      else match skipBlanks s with
        | [] => .error .truncated
        | '"' :: s => .ok (.element s)
        | _ :: _ => .error .malformed
  | _ :: _ => .error .malformed

/-- Go over the colon behind a name. -/
def colon (s : List Char) : Except Fault (List Char) :=
  match skipBlanks s with
  | [] => .error .truncated
  | ':' :: s => .ok s
  | _ :: _ => .error .malformed

/-- The members of an object after its opening brace.  `member` says, from what
was gathered so far and a name, how to read the value of that name. -/
def members {σ : Type} (unicode : Read Char) (member : σ → String → Except Fault (Read σ)) :
    Bool → Nat → σ → Read σ
  | _, 0, _, _ => .error .truncated
  | first, fuel + 1, st, s => do
      match ← nextName first s with
      | .close s => .ok (st, s)
      | .element s => do
          let (name, s) ← stringRest unicode s
          let read ← member st name
          let s ← colon s
          let (st, s) ← read s
          members unicode member false fuel st s

/-- An object after its opening brace. -/
def objectRest {σ : Type} (unicode : Read Char) (member : σ → String → Except Fault (Read σ))
    (start : σ) : Read σ :=
  fun s => members unicode member true (s.length + 1) start s

/-- Gather the members of a table whose values are read by `item`. -/
def tableMember {α : Type} (item : Read α) (t : NameTable α) (name : String) :
    Except Fault (Read (NameTable α)) :=
  .ok fun s => do
    let (x, s) ← item s
    .ok (t.insert name x, s)

/-! ## Values -/

/-- Any value, with room for `capacity` open brackets and braces. -/
def value (leaves : Leaves) : Nat → Read Json
  | 0 => fun s =>
      match skipBlanks s with
      | '[' :: _ => .error .malformed
      | '{' :: _ => .error .malformed
      | s => scalar leaves s
  | capacity + 1 => fun s =>
      match skipBlanks s with
      | '[' :: s => do
          let (xs, s) ← listRest (value leaves capacity) s
          .ok (.arr xs, s)
      | '{' :: s => do
          let (t, s) ← objectRest leaves.unicode (tableMember (value leaves capacity))
            NameTable.empty s
          .ok (.object t, s)
      | s => scalar leaves s

/-- Skip a value of any nesting. -/
def skipValue : Read Unit := fun s => do
  let (_, s) ← value lenient s.length s
  .ok ((), s)

end JointCircuit.Json

import JointCircuit.Json.Basic

/-!
# Reading JSON

A reader takes a value off the front of a text and returns it with the rest.  It
fails in one of three ways: the text is malformed, it ends too early
(`truncated`), or it is well-formed up to a value of the wrong form
(`mismatch`).  The first failure from the left decides.
-/

namespace JointCircuit.Json

/-- Why a text could not be read. -/
inductive Fault where
  | malformed
  | truncated
  | mismatch
deriving DecidableEq, Repr, Inhabited

/-- A reader takes a value off the front of a text. -/
abbrev Read (α : Type) := List Char → Except Fault (α × List Char)

/-- A text without the blanks in front.  JSON knows four of them. -/
def skipBlanks (s : List Char) : List Char :=
  s.dropWhile fun c => c == ' ' || c == '\n' || c == '\t' || c == '\r'

/-- Take a fixed word off the front. -/
def expect : List Char → List Char → Except Fault (List Char)
  | [], s => .ok s
  | _ :: _, [] => .error .truncated
  | w :: ws, c :: s => if c = w then expect ws s else .error .malformed

end JointCircuit.Json

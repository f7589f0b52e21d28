/-!
# Lines

A line ends at a line feed.  What follows the last line feed is a line only when
it is not empty.  A carriage return before the line feed stays in the line here:
it is a blank, and every reader of lines trims them first.

`numbered` pairs lines with their number, counted from one over all lines, so a
message can name the line a reader of the file would count to.
-/

namespace JointCircuit.Text

/-- Put a character in front of the first line. -/
def extendLine (c : Char) : List (List Char) → List (List Char)
  | [] => [[c]]
  | l :: ls => (c :: l) :: ls

/-- The lines of a text. -/
def lines : List Char → List (List Char)
  | [] => []
  | c :: s => if c = '\n' then [] :: lines s else extendLine c (lines s)

/-- Number the lines from `n` on. -/
def numberFrom (n : Nat) : List (List Char) → List (Nat × List Char)
  | [] => []
  | l :: ls => (n, l) :: numberFrom (n + 1) ls

/-- The lines with their numbers, the first being line one. -/
def numbered (ls : List (List Char)) : List (Nat × List Char) := numberFrom 1 ls

end JointCircuit.Text

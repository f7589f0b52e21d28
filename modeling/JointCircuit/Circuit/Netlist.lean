/-!
# Netlists

A netlist is what the text of a circuit says: the number of wires, the widths of
the input and output values in order of their first wires, and the gates in the
order in which they are run.  A gate reads one or two wires and writes one.

Every gate keeps the line it stands on, and the netlist the lines of its header,
so that a later check can point into the text.
-/

namespace JointCircuit

/-- The side of the circuit a value is on. -/
inductive Side where
  | input
  | output
deriving DecidableEq, Repr, Inhabited

/-- The word for a value of a side. -/
def Side.word : Side → String
  | .input => "input"
  | .output => "output"

/-- A gate with two operands. -/
inductive BinaryOp where
  | and
  | xor
  | or
deriving DecidableEq, Repr, Inhabited

/-- A gate with one operand. -/
inductive UnaryOp where
  | not
  | copy
deriving DecidableEq, Repr, Inhabited

/-- The keyword of a gate with two operands. -/
def BinaryOp.keyword : BinaryOp → String
  | .and => "AND"
  | .xor => "XOR"
  | .or => "OR"

/-- The keyword of a gate with one operand. -/
def UnaryOp.keyword : UnaryOp → String
  | .not => "NOT"
  | .copy => "COPY"

/-- The value of a gate with two operands. -/
def BinaryOp.apply : BinaryOp → Bool → Bool → Bool
  | .and, x, y => x && y
  | .xor, x, y => x ^^ y
  | .or, x, y => x || y

/-- The value of a gate with one operand. -/
def UnaryOp.apply : UnaryOp → Bool → Bool
  | .not, x => !x
  | .copy, x => x

/-- A gate, its wires numbered as in the text. -/
inductive Gate where
  | binary (op : BinaryOp) (left right output : Nat)
  | unary (op : UnaryOp) (input output : Nat)
deriving DecidableEq, Repr, Inhabited

/-- The wire a gate writes. -/
def Gate.output : Gate → Nat
  | .binary _ _ _ z => z
  | .unary _ _ z => z

/-- The wires a gate reads, in the order it reads them. -/
def Gate.operands : Gate → List Nat
  | .binary _ x y _ => [x, y]
  | .unary _ x _ => [x]

/-- The keyword of a gate. -/
def Gate.keyword : Gate → String
  | .binary op _ _ _ => op.keyword
  | .unary op _ _ => op.keyword

/-- A gate with its line. -/
structure PlacedGate where
  /-- The line of the text, counted from one. -/
  line : Nat
  gate : Gate
deriving DecidableEq, Repr, Inhabited

/-- The three lines of the header. -/
structure HeaderLines where
  /-- The line with the numbers of gates and wires. -/
  counts : Nat
  inputs : Nat
  outputs : Nat
deriving DecidableEq, Repr, Inhabited

/-- A circuit as its text describes it. -/
structure Netlist where
  wireCount : Nat
  inputWidths : List Nat
  outputWidths : List Nat
  /-- The gates in the order they are run. -/
  gates : List PlacedGate
  header : HeaderLines
deriving DecidableEq, Repr, Inhabited

/-! The widths are words, but their sums here are not bounded.  `Netlist.Countable` says
when they are words too.  The sums name their zero, as there is more than one way to find it. -/

/-- The number of input bits. -/
def Netlist.inputBits (n : Netlist) : Nat := @List.sum Nat _ Zero.ofOfNat0 n.inputWidths

/-- The number of output bits. -/
def Netlist.outputBits (n : Netlist) : Nat := @List.sum Nat _ Zero.ofOfNat0 n.outputWidths

end JointCircuit

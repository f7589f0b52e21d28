import JointCircuit.Json.Basic
import JointCircuit.Decimal.Shortest
import JointCircuit.Text.Hex

/-!
# Writing JSON

The compact form: no blanks, the members of an object in the order of their
names.  In a string the quote, the backslash and the characters below the space
are escaped, five of those with a letter and the others as four hexadecimal
digits.  Everything else stands for itself.

A binary64 number is written as its shortest decimal.  `FloatLayout` holds the
choices that are left after the digits are known, and `floatLayout` makes them.
-/

namespace JointCircuit.Json

/-! ## Strings -/

/-- The text of one character inside a string. -/
def escapeChar (c : Char) : List Char :=
  if c = '"' then ['\\', '"']
  else if c = '\\' then ['\\', '\\']
  else if c = '\n' then ['\\', 'n']
  else if c = '\r' then ['\\', 'r']
  else if c = '\t' then ['\\', 't']
  else if c.toNat = 8 then ['\\', 'b']
  else if c.toNat = 12 then ['\\', 'f']
  else if c.toNat < 32 then ['\\', 'u', '0', '0'] ++ Text.hexByte c.toUInt8
  else [c]

/-- The text of a string with its quotes. -/
def quote (s : String) : List Char :=
  '"' :: (s.toList.flatMap escapeChar ++ ['"'])

/-! ## Numbers -/

/-- How the digits of a binary64 number are laid out. -/
structure FloatLayout where
  /-- The least exponent of the leading digit that is written without exponent. -/
  plainFrom : Int
  /-- The greatest exponent of the leading digit that is written without exponent. -/
  plainTo : Int
  /-- The character between digits and exponent. -/
  mark : Char
  /-- Whether a positive exponent has a sign. -/
  signed : Bool

/-- Numbers from `0.00001` below `10 ^ 16` are written plainly and always have a
point.  All others have an exponent with its sign. -/
def floatLayout : FloatLayout := ⟨-5, 15, 'e', true⟩

/-- The decimal digits of a natural. -/
def digits (n : Nat) : List Char := Nat.toDigits 10 n

/-- An integer in decimal. -/
def intText (n : Int) : List Char :=
  if n < 0 then '-' :: digits n.natAbs else digits n.natAbs

/-- The digits of a number with the point where the exponent of the leading digit
puts it, and a zero on a side of the point that has no digit. -/
def plainText (ds : List Char) (lead : Int) : List Char :=
  if lead < 0 then '0' :: '.' :: (List.replicate (-lead - 1).toNat '0' ++ ds)
  else
    let whole := lead.toNat + 1
    let fraction := ds.drop whole
    ds.take whole ++ List.replicate (whole - ds.length) '0'
      ++ '.' :: (if fraction = [] then ['0'] else fraction)

/-- The digits of a number with the point after the first and the exponent behind. -/
def exponentText (layout : FloatLayout) (ds : List Char) (lead : Int) : List Char :=
  let mantissa := match ds with
    | [] => []
    | [d] => [d]
    | d :: rest => d :: '.' :: rest
  let sign := if lead < 0 then ['-'] else if layout.signed then ['+'] else []
  mantissa ++ layout.mark :: (sign ++ digits lead.natAbs)

/-- The text of a binary64 number. -/
def floatText (layout : FloatLayout) (x : Binary64) : List Char :=
  let s := Decimal.shortest x.significand x.scale (x.fraction == 0 && 1 < x.exponentField)
  let ds := digits s.digits
  let lead := s.exponent + ds.length - 1
  let body :=
    if layout.plainFrom ≤ lead ∧ lead ≤ layout.plainTo then plainText ds lead
    else exponentText layout ds lead
  if x.isNegative then '-' :: body else body

/-! ## Values -/

mutual

/-- The compact text of a value. -/
def chars : Json → List Char
  | .null => ['n', 'u', 'l', 'l']
  | .bool true => ['t', 'r', 'u', 'e']
  | .bool false => ['f', 'a', 'l', 's', 'e']
  | .int n => intText n
  | .float x => floatText floatLayout x
  | .str s => quote s
  | .arr [] => ['[', ']']
  | .arr (x :: xs) => '[' :: (chars x ++ itemChars xs)
  | .obj [] => ['{', '}']
  | .obj ((k, v) :: ms) => '{' :: (quote k ++ ':' :: (chars v ++ memberChars ms))

/-- The text of the items after the first, up to the closing bracket. -/
def itemChars : List Json → List Char
  | [] => [']']
  | x :: xs => ',' :: (chars x ++ itemChars xs)

/-- The text of the members after the first, up to the closing brace. -/
def memberChars : List (String × Json) → List Char
  | [] => ['}']
  | (k, v) :: ms => ',' :: (quote k ++ ':' :: (chars v ++ memberChars ms))

end

/-- The compact text of a value. -/
def compact (j : Json) : String := String.ofList j.chars

end JointCircuit.Json

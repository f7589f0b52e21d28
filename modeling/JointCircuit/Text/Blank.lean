/-!
# Blank characters

A blank is a character with the White_Space property of Unicode.  Circuit texts
are cut at blanks: a line is trimmed of the blanks at both its ends, and its
words are the longest runs of other characters.

`words` recurses on the text one character at a time, so a test on a concrete
line evaluates by `decide`.
-/

namespace JointCircuit.Text

/-- Decide the White_Space property: the controls from tab to carriage return,
the space, next line, no-break space, and the spaces and separators of the
higher blocks. -/
def isBlank (c : Char) : Bool :=
  let n := c.toNat
  (9 ≤ n && n ≤ 13) || n == 0x20 || n == 0x85 || n == 0xA0 || n == 0x1680
    || (0x2000 ≤ n && n ≤ 0x200A) || n == 0x2028 || n == 0x2029 || n == 0x202F
    || n == 0x205F || n == 0x3000

/-- A text without the blanks at its two ends. -/
def trim (s : List Char) : List Char :=
  ((s.dropWhile isBlank).reverse.dropWhile isBlank).reverse

/-- Put a character in front of the first word, or of a new one when the text
after it starts with a blank or is empty. -/
def extendWord (c : Char) (next : Option Char) (ws : List (List Char)) : List (List Char) :=
  match ws with
  | [] => [[c]]
  | w :: rest => if next.all isBlank then [c] :: w :: rest else (c :: w) :: rest

/-- The longest runs of characters that are not blank, in order. -/
def words : List Char → List (List Char)
  | [] => []
  | c :: s => if isBlank c then words s else extendWord c s.head? (words s)

/-- Blanks alone hold no word. -/
theorem words_blank {s : List Char} (h : ∀ c ∈ s, isBlank c = true) : words s = [] := by
  induction s with
  | nil => rfl
  | cons c s ih =>
    rw [words, if_pos (h c (List.mem_cons_self ..))]
    exact ih fun d hd => h d (List.mem_cons_of_mem _ hd)

end JointCircuit.Text

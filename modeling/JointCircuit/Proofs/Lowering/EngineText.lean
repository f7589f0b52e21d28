import JointCircuit.Lowered
import Mathlib.Data.List.Basic

/-!
# The text an engine reads

The text of a lowered circuit is a row of lines, with a line feed between two of them:
the line of counts, the line of widths, a blank line, and a line for each gate
(`LoweredCircuit.text_eq`).  A line is a row of words with a space between two of them.
No word has a space or a line feed in it, so cutting the text at line feeds gives its
lines back and cutting a line at spaces gives its words.

A number is written in one way.  So the words of a gate determine the gate, and the text
determines all of the circuit but how the input bits are shared out among the parties when
there are not two of them (`LoweredCircuit.text_eq_iff`).
-/

namespace JointCircuit

namespace Text

/-- The word of a number. -/
def numeral (n : Nat) : List Char := n.repr.toList

/-- A line of words with a space between two of them. -/
def spaced (ws : List (List Char)) : List Char := [' '].intercalate ws

/-- A word without a space or a line feed. -/
def Plain (w : List Char) : Prop := ' ' ∉ w ∧ '\n' ∉ w

instance (w : List Char) : Decidable (Plain w) :=
  inferInstanceAs (Decidable (' ' ∉ w ∧ '\n' ∉ w))

theorem numeral_injective : Function.Injective numeral := by
  intro m n h
  rw [numeral, numeral, Nat.toList_repr, Nat.toList_repr] at h
  have hread := congrArg (fun digits => Nat.ofDigitChars 10 digits 0) h
  simpa using hread

theorem plain_numeral (n : Nat) : Plain (numeral n) := by
  have hdigit : ∀ c ∈ numeral n, c.isDigit = true := by
    intro c hc
    rw [numeral, Nat.toList_repr] at hc
    exact Nat.isDigit_of_mem_toDigits (by decide) (by decide) hc
  constructor
  · intro hspace
    exact absurd (hdigit _ hspace) (by decide)
  · intro hfeed
    exact absurd (hdigit _ hfeed) (by decide)

/-- In a row of pieces every piece but the first has the separator in front. -/
theorem intercalate_cons {α : Type} (a : α) (l : List α) (ls : List (List α)) :
    [a].intercalate (l :: ls) = l ++ ls.flatMap (a :: ·) := by
  induction ls generalizing l with
  | nil => simp
  | cons m ls ih => simp [List.intercalate_cons_cons, ih]

/-- Cutting a line at spaces gives its words. -/
theorem splitOn_spaced {ws : List (List Char)} (hne : ws ≠ []) (h : ∀ w ∈ ws, Plain w) :
    (spaced ws).splitOn ' ' = ws :=
  List.splitOn_intercalate ' ' (fun w hw => (h w hw).1) hne

theorem not_mem_spaced {ws : List (List Char)} (h : ∀ w ∈ ws, Plain w) : '\n' ∉ spaced ws := by
  cases ws with
  | nil => simp [spaced]
  | cons w ws =>
      rw [List.forall_mem_cons] at h
      obtain ⟨hw, hws⟩ := h
      simp only [spaced, intercalate_cons, List.mem_append, List.mem_flatMap, List.mem_cons]
      rintro (hfirst | ⟨v, hv, hspace | hlater⟩)
      · exact hw.2 hfirst
      · cases hspace
      · exact (hws v hv).2 hlater

/-- A line that is not blank determines its words. -/
theorem spaced_inj {ws vs : List (List Char)} (hws : ∀ w ∈ ws, Plain w) (hvs : ∀ v ∈ vs, Plain v)
    (hwsne : ws ≠ []) (hvsne : vs ≠ []) (h : spaced ws = spaced vs) : ws = vs := by
  rw [← splitOn_spaced hwsne hws, h, splitOn_spaced hvsne hvs]

/-! ## Lines of numbers -/

/-- The line of a row of numbers. -/
def numbersLine (ns : List Nat) : List Char := spaced (ns.map numeral)

theorem plain_numerals (ns : List Nat) : ∀ w ∈ ns.map numeral, Plain w :=
  List.forall_mem_map.mpr fun n _ => plain_numeral n

theorem splitOn_numbersLine {ns : List Nat} (hne : ns ≠ []) :
    (numbersLine ns).splitOn ' ' = ns.map numeral :=
  splitOn_spaced (by simpa using hne) (plain_numerals ns)

/-- A line of numbers determines them. -/
theorem numbersLine_inj {ms ns : List Nat} (hms : ms ≠ []) (hns : ns ≠ []) :
    numbersLine ms = numbersLine ns ↔ ms = ns := by
  constructor
  · intro h
    refine List.map_injective_iff.mpr numeral_injective ?_
    exact spaced_inj (plain_numerals ms) (plain_numerals ns) (by simpa using hms)
      (by simpa using hns) h
  · rintro rfl
    rfl

theorem numbersLine_ne_nil {ns : List Nat} (hne : ns ≠ []) : numbersLine ns ≠ [] := by
  intro hnil
  have hwords := splitOn_numbersLine hne
  obtain ⟨n, ns, rfl⟩ := List.exists_cons_of_ne_nil hne
  rw [hnil, List.splitOn_nil, List.map_cons, List.cons.injEq] at hwords
  have hdigits : Nat.toDigits 10 n = [] := by rw [← Nat.toList_repr, ← numeral, ← hwords.1]
  exact Nat.toDigits_ne_nil hdigits

end Text

open Text (numeral numeral_injective plain_numeral spaced Plain numbersLine)

/-! ## The line of a gate -/

namespace LoweredGate

/-- The words of a gate. -/
def words : LoweredGate Nat → List (List Char)
  | .and x y z => [['2'], ['1'], numeral x, numeral y, numeral z, ['A', 'N', 'D']]
  | .xor x y z => [['2'], ['1'], numeral x, numeral y, numeral z, ['X', 'O', 'R']]
  | .inv x z => [['1'], ['1'], numeral x, numeral z, ['I', 'N', 'V']]

theorem words_ne_nil (g : LoweredGate Nat) : g.words ≠ [] := by
  cases g <;> exact List.cons_ne_nil _ _

theorem plain_words (g : LoweredGate Nat) : ∀ w ∈ g.words, Plain w := by
  have hletters : ∀ w ∈ [['1'], ['2'], ['A', 'N', 'D'], ['X', 'O', 'R'], ['I', 'N', 'V']],
      Plain w := by decide
  cases g <;> simp [words, plain_numeral, hletters]

/-- The line of a gate is its words. -/
theorem text_eq (g : LoweredGate Nat) : g.text.toList = spaced g.words := by
  cases g <;> simp [text, words, spaced, numeral, toString]

/-- The words of a gate say which gate it is. -/
theorem words_injective : Function.Injective words := by
  intro g g' h
  cases g <;> cases g' <;> simp_all [words, numeral_injective.eq_iff]

/-- The line of a gate says which gate it is. -/
theorem text_injective : Function.Injective fun g : LoweredGate Nat => g.text.toList := by
  intro g g' h
  simp only [text_eq] at h
  exact words_injective
    (Text.spaced_inj g.plain_words g'.plain_words g.words_ne_nil g'.words_ne_nil h)

theorem text_ne_empty (g : LoweredGate Nat) : g.text ≠ "" := by
  cases g <;> simp [text]

end LoweredGate

/-! ## The lines of a circuit -/

namespace LoweredCircuit

variable {c c' : LoweredCircuit}

/-- The numbers on the line of widths. -/
def widths (c : LoweredCircuit) : List Nat :=
  match c.partyBits with
  | [a, b] => [a, b, c.outputBits]
  | _ => [c.inputBits, 0, c.outputBits]

theorem widths_ne_nil (c : LoweredCircuit) : c.widths ≠ [] := by
  unfold widths
  split <;> exact List.cons_ne_nil _ _

theorem widths_of_two {a b : Nat} (h : c.partyBits = [a, b]) : c.widths = [a, b, c.outputBits] := by
  rw [widths, h]

theorem widths_of_ne (h : c.partyBits.length ≠ 2) : c.widths = [c.inputBits, 0, c.outputBits] := by
  unfold widths
  split
  · rename_i hpair
    rw [hpair] at h
    exact absurd rfl h
  · rfl

/-- The line of widths determines the output bits, the input bits of two parties, and those
of all parties together when there are not two. -/
theorem widths_eq_iff (hparties : c.partyBits.length = c'.partyBits.length) :
    c.widths = c'.widths ↔ c.outputBits = c'.outputBits ∧
      if c.partyBits.length = 2 then c.partyBits = c'.partyBits
      else c.inputBits = c'.inputBits := by
  by_cases htwo : c.partyBits.length = 2
  · obtain ⟨a, b, hab⟩ := List.length_eq_two.mp htwo
    obtain ⟨a', b', hab'⟩ := List.length_eq_two.mp (hparties ▸ htwo)
    rw [widths_of_two hab, widths_of_two hab', if_pos htwo, hab, hab']
    simp [and_comm, and_assoc]
  · rw [widths_of_ne htwo, widths_of_ne (hparties ▸ htwo), if_neg htwo]
    simp [and_comm]

/-- The lines of the text of a circuit. -/
def lines (c : LoweredCircuit) : List (List Char) :=
  numbersLine [c.gates.length, c.wireCount] :: numbersLine c.widths :: [] ::
    c.gates.map fun g => g.text.toList

theorem widthLine_eq (c : LoweredCircuit) : c.widthLine.toList = numbersLine c.widths := by
  unfold widthLine
  split
  · rename_i hpair
    simp [widths_of_two hpair, numbersLine, spaced, numeral, toString]
  · rename_i hother
    have hne : c.partyBits.length ≠ 2 := by
      intro htwo
      obtain ⟨a, b, hab⟩ := List.length_eq_two.mp htwo
      exact hother a b hab
    simp [widths_of_ne hne, numbersLine, spaced, numeral, toString]

/-- The text of a circuit is its lines, with a line feed between two of them. -/
theorem text_eq (c : LoweredCircuit) : c.text.toList = ['\n'].intercalate c.lines := by
  simp [text, lines, Text.intercalate_cons, widthLine_eq, numbersLine, spaced, numeral, toString,
    List.flatMap_map]

/-- No line of a circuit has a line feed in it. -/
theorem not_mem_lines (c : LoweredCircuit) : ∀ l ∈ c.lines, '\n' ∉ l := by
  have hnumbers : ∀ ns : List Nat, '\n' ∉ numbersLine ns := fun ns =>
    Text.not_mem_spaced (Text.plain_numerals ns)
  have hgates : ∀ g ∈ c.gates, '\n' ∉ g.text.toList := by
    intro g _
    rw [g.text_eq]
    exact Text.not_mem_spaced g.plain_words
  simpa [lines, hnumbers] using hgates

/-- Cutting the text of a circuit at line feeds gives its lines. -/
theorem splitOn_text (c : LoweredCircuit) : c.text.toList.splitOn '\n' = c.lines := by
  rw [text_eq]
  exact List.splitOn_intercalate '\n' c.not_mem_lines (List.cons_ne_nil _ _)

/-- The lines determine the counts, the gates and the numbers on the line of widths. -/
theorem lines_eq_iff : c.lines = c'.lines ↔
    c.gates = c'.gates ∧ c.wireCount = c'.wireCount ∧ c.widths = c'.widths := by
  rw [lines, lines, List.cons.injEq, List.cons.injEq, List.cons.injEq,
    Text.numbersLine_inj (List.cons_ne_nil _ _) (List.cons_ne_nil _ _),
    Text.numbersLine_inj c.widths_ne_nil c'.widths_ne_nil,
    (List.map_injective_iff.mpr LoweredGate.text_injective).eq_iff]
  constructor
  · rintro ⟨hcounts, hwidths, _, hgates⟩
    simp only [List.cons.injEq, and_true] at hcounts
    exact ⟨hgates, hcounts.2, hwidths⟩
  · rintro ⟨hgates, hwires, hwidths⟩
    exact ⟨by rw [hgates, hwires], hwidths, rfl, hgates⟩

/-- Two circuits for as many parties have the same text when they have the same gates, wires
and output bits, and the same input bits: of each party when there are two, and of all
parties together otherwise.

The text of every circuit has one blank line, the third.  A line for each gate follows it,
and the first number of the first line is the number of these lines. -/
theorem text_eq_iff :
    (∀ c c' : LoweredCircuit, c.partyBits.length = c'.partyBits.length →
      (c.text = c'.text ↔ c.gates = c'.gates ∧ c.wireCount = c'.wireCount ∧
        c.outputBits = c'.outputBits ∧
        if c.partyBits.length = 2 then c.partyBits = c'.partyBits
        else c.inputBits = c'.inputBits)) ∧
    ∀ c : LoweredCircuit, ∃ counts widths gateLines,
      c.text.toList.splitOn '\n' = counts :: widths :: [] :: gateLines ∧
      [] ∉ counts :: widths :: gateLines ∧ gateLines = c.gates.map (fun g => g.text.toList) ∧
      counts.splitOn ' ' = [(toString gateLines.length).toList, (toString c.wireCount).toList] := by
  refine ⟨fun c c' hparties => ?_, fun c => ?_⟩
  · rw [← widths_eq_iff hparties, ← lines_eq_iff]
    constructor
    · intro htext
      rw [← splitOn_text, ← splitOn_text, htext]
    · intro hlines
      rw [← String.toList_inj, text_eq, text_eq, hlines]
  · refine ⟨_, _, _, c.splitOn_text, ?_, rfl, ?_⟩
    · have hcounts := Text.numbersLine_ne_nil (List.cons_ne_nil c.gates.length [c.wireCount])
      have hwidths := Text.numbersLine_ne_nil c.widths_ne_nil
      simp [hcounts.symm, hwidths.symm, LoweredGate.text_ne_empty]
    · rw [Text.splitOn_numbersLine (List.cons_ne_nil _ _), List.length_map]
      rfl

/-- A circuit for three parties, of whom each may have any of the inputs. -/
def sharedCircuit (partyBits : List Nat) : LoweredCircuit :=
  { gates := [.and 0 1 3, .inv 3 4], wireCount := 5, partyBits, outputBits := 1 }

theorem text_eq_iff_shared :
    (sharedCircuit [1, 1, 1]).partyBits.length = (sharedCircuit [2, 1, 0]).partyBits.length ∧
      (sharedCircuit [1, 1, 1]).text = (sharedCircuit [2, 1, 0]).text ∧
      (sharedCircuit [1, 1, 1]).text ≠ (sharedCircuit [1, 1, 0]).text := by
  have hsame := text_eq_iff.1 (sharedCircuit [1, 1, 1]) (sharedCircuit [2, 1, 0]) rfl
  have hfewer := text_eq_iff.1 (sharedCircuit [1, 1, 1]) (sharedCircuit [1, 1, 0]) rfl
  refine ⟨rfl, hsame.mpr ⟨rfl, rfl, rfl, by decide⟩, fun htext => ?_⟩
  obtain ⟨_, _, _, hbits⟩ := hfewer.mp htext
  exact absurd hbits (by decide)

end LoweredCircuit

end JointCircuit

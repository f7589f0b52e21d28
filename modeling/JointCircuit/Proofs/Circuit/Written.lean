import JointCircuit.Proofs.Circuit.Lines
import JointCircuit.Proofs.Text.Breaks

/-!
# The grammar of a circuit text

What it means that a text writes a netlist (`Netlist.Written`), stated on the text and
not on its reader.  Of the lines of the text those that are not blank count.

* The first holds two numbers, of gates and of wires.
* The second holds the number of inputs and then the width of each.
* The third holds the same for the outputs.
* The others are the gates in their order, as many as the first line says.  A gate line
  holds the numbers of its inputs and outputs, its wires, the output last and all below
  the number of wires, and its keyword.

The reader accepts the texts that write a netlist, and gives the netlist they write
(`Netlist.parse_eq_ok_iff`).  Each stage of the reader is inverted by one lemma, and the
theorem puts them together.
-/

namespace JointCircuit

/-! ## The grammar -/

/-- A line holds numerals with the values given, and nothing else. -/
def Text.HoldsNumbers (line : List Char) (ns : List Nat) : Prop :=
  ∃ ws, Holds line ws ∧ List.Forall₂ Numeral ws ns

/-- The numbers on the line of a gate: of its inputs and outputs, and its wires. -/
def Gate.numbers : Gate → List Nat
  | .binary _ x y z => [2, 1, x, y, z]
  | .unary _ x z => [1, 1, x, z]

/-- The words of a line write a gate of a circuit with `wireCount` wires. -/
def Gate.Words (wireCount : Nat) (ws : List (List Char)) (g : Gate) : Prop :=
  ∃ nums, ws = nums ++ [g.keyword.toList] ∧ List.Forall₂ Text.Numeral nums g.numbers ∧
    ∀ x ∈ g.operands ++ [g.output], x < wireCount

/-- A gate is what a line holds, and it keeps the number of the line. -/
def PlacedGate.StandsOn (wireCount : Nat) (l : List Char × Nat) (g : PlacedGate) : Prop :=
  g.line = l.2 ∧ ∃ ws, Text.Holds l.1 ws ∧ g.gate.Words wireCount ws

/-- Lines write a netlist: three for its header and one for each gate. -/
structure Netlist.Rows (n : Netlist) (first second third : List Char × Nat)
    (rest : List (List Char × Nat)) : Prop where
  counts : Text.HoldsNumbers first.1 [n.gates.length, n.wireCount]
  inputs : Text.HoldsNumbers second.1 (n.inputWidths.length :: n.inputWidths)
  outputs : Text.HoldsNumbers third.1 (n.outputWidths.length :: n.outputWidths)
  gates : List.Forall₂ (fun l g => g.StandsOn n.wireCount l) rest n.gates
  header : n.header = ⟨first.2, second.2, third.2⟩

/-- A text writes a netlist on its lines that are not blank. -/
def Netlist.Written (n : Netlist) (text : List Char) : Prop :=
  ∃ ls first second third rest, Text.Broken text ls ∧
    Text.countedLines ls = first :: second :: third :: rest ∧ n.Rows first second third rest

namespace Netlist

/-! ## Numbers -/

theorem readNumber_eq_ok {word : List Char} {n : Nat} :
    readNumber word = .ok n ↔ Text.Numeral word n := by
  rw [← Text.number?_eq_some_iff, readNumber]
  cases Text.number? word <;> simp

theorem readNumbers_eq_ok {ws : List (List Char)} {ns : List Nat} :
    readNumbers ws = .ok ns ↔ List.Forall₂ Text.Numeral ws ns := by
  induction ws generalizing ns with
  | nil => rw [List.forall₂_nil_left_iff, readNumbers, Except.ok.injEq, eq_comm]
  | cons w ws ih =>
      rw [List.forall₂_cons_left_iff, readNumbers, bind_eq_ok]
      constructor
      · rintro ⟨n, hn, h⟩
        obtain ⟨ns', hns, h⟩ := bind_eq_ok.mp h
        cases h
        exact ⟨n, ns', readNumber_eq_ok.mp hn, ih.mp hns, rfl⟩
      · rintro ⟨n, ns', hn, hns, rfl⟩
        exact ⟨n, readNumber_eq_ok.mpr hn, bind_eq_ok.mpr ⟨ns', ih.mpr hns, rfl⟩⟩

/-- On a line that is not blank, the numbers that are read are those the line holds. -/
theorem readNumbers_trim_eq_ok {line : List Char} {ns : List Nat} (h : ¬ Text.Blank line) :
    readNumbers (Text.words (Text.trim line)) = .ok ns ↔ Text.HoldsNumbers line ns := by
  rw [Text.words_trim, readNumbers_eq_ok]
  constructor
  · intro hnumbers
    exact ⟨_, (Text.words_eq_iff h).mp rfl, hnumbers⟩
  · rintro ⟨ws, hholds, hnumbers⟩
    rwa [hholds.words_eq]

/-! ## The header -/

theorem readCounts_eq_ok {text : List Char} {gates wires : Nat} :
    readCounts text = .ok (gates, wires) ↔
      readNumbers (Text.words text) = .ok [gates, wires] := by
  rw [readCounts, bind_eq_ok]
  constructor
  · rintro ⟨ns, hns, h⟩
    split at h
    · cases h
      exact hns
    · cases h
  · intro hns
    exact ⟨_, hns, rfl⟩

theorem readWidths_eq_ok {side : Side} {text : List Char} {widths : List Nat} :
    readWidths side text = .ok widths ↔
      readNumbers (Text.words text) = .ok (widths.length :: widths) := by
  rw [readWidths, bind_eq_ok]
  constructor
  · rintro ⟨ns, hns, h⟩
    split at h
    · cases h
    · split at h
      · rename_i hlength
        cases h
        rwa [hlength]
      · cases h
  · intro hns
    exact ⟨_, hns, if_pos rfl⟩

/-! ## A gate -/

theorem binaryOp?_eq_some {keyword : String} {op : BinaryOp} :
    binaryOp? keyword = some op ↔ keyword = op.keyword := by
  constructor
  · intro h
    unfold binaryOp? at h
    split at h
    · cases h
      assumption
    · split at h
      · cases h
        assumption
      · split at h
        · cases h
          assumption
        · cases h
  · rintro rfl
    cases op <;> rfl

theorem unaryOp?_eq_some {keyword : String} {op : UnaryOp} :
    unaryOp? keyword = some op ↔ keyword = op.keyword := by
  constructor
  · intro h
    unfold unaryOp? at h
    split at h
    · cases h
      assumption
    · split at h
      · cases h
        assumption
      · cases h
  · rintro rfl
    cases op <;> rfl

/-- The gate that is made is the one with the keyword and the numbers given. -/
theorem makeGate_eq_ok {keyword : String} {inputs outputs : Nat} {wires : List Nat} {g : Gate} :
    makeGate keyword inputs outputs wires = .ok g ↔
      keyword = g.keyword ∧ inputs :: outputs :: wires = g.numbers := by
  constructor
  · intro h
    unfold makeGate at h
    split at h
    · rename_i hop
      split at h
      · cases h
        exact ⟨binaryOp?_eq_some.mp hop, rfl⟩
      · cases h
    · rename_i hop
      split at h
      · cases h
        exact ⟨unaryOp?_eq_some.mp hop, rfl⟩
      · cases h
    · cases h
  · rintro ⟨rfl, hnumbers⟩
    cases g with
    | binary op x y z =>
        cases hnumbers
        cases op <;> rfl
    | unary op x z =>
        cases hnumbers
        cases op <;> rfl

/-- The numbers of a gate are those of its inputs and outputs, and its wires. -/
theorem numbers_eq_cons {g : Gate} {inputs outputs : Nat} {wires : List Nat}
    (h : inputs :: outputs :: wires = g.numbers) :
    wires = g.operands ++ [g.output] ∧ wires.length = min (inputs + outputs) maxIndex := by
  cases g <;> cases h <;> exact ⟨rfl, rfl⟩

/-- The first two words of a gate are numbers of wires. -/
theorem exists_cons_cons {nums : List (List Char)} {g : Gate}
    (h : List.Forall₂ Text.Numeral nums g.numbers) :
    ∃ inputs outputs wires, nums = inputs :: outputs :: wires := by
  have hlength := h.length_eq
  match nums with
  | inputs :: outputs :: wires => exact ⟨inputs, outputs, wires, rfl⟩
  | [] => cases g <;> cases hlength
  | [_] => cases g <;> cases hlength

/-- A gate line is read when its words are the numbers and the keyword of a gate with
wires that are there. -/
theorem readGateWords_eq_ok {wireCount : Nat} {keyword : String} {inputs outputs : List Char}
    {wires : List (List Char)} {g : Gate} :
    readGateWords wireCount keyword inputs outputs wires = .ok g ↔
      keyword = g.keyword ∧ List.Forall₂ Text.Numeral (inputs :: outputs :: wires) g.numbers ∧
        ∀ x ∈ g.operands ++ [g.output], x < wireCount := by
  rw [readGateWords, bind_eq_ok]
  constructor
  · rintro ⟨i, hi, h⟩
    obtain ⟨o, ho, h⟩ := bind_eq_ok.mp h
    obtain ⟨ws, hws, h⟩ := bind_eq_ok.mp h
    split at h
    · split at h
      · cases h
      · rename_i hnone
        obtain ⟨hkeyword, hnumbers⟩ := makeGate_eq_ok.mp h
        obtain ⟨rfl, _⟩ := numbers_eq_cons hnumbers
        rw [← hnumbers]
        refine ⟨hkeyword, .cons (readNumber_eq_ok.mp hi) (.cons (readNumber_eq_ok.mp ho)
          (readNumbers_eq_ok.mp hws)), fun x hx => ?_⟩
        simpa using List.find?_eq_none.mp hnone x hx
    · cases h
  · rintro ⟨hkeyword, hnumbers, hwires⟩
    obtain ⟨i, ns, hi, hns, hg⟩ := List.forall₂_cons_left_iff.mp hnumbers
    obtain ⟨o, ws, ho, hws, rfl⟩ := List.forall₂_cons_left_iff.mp hns
    obtain ⟨rfl, hlength⟩ := numbers_eq_cons hg.symm
    have hnone : (g.operands ++ [g.output]).find? (fun w => wireCount ≤ w) = none :=
      List.find?_eq_none.mpr fun x hx => by simpa using hwires x hx
    refine ⟨i, readNumber_eq_ok.mpr hi, bind_eq_ok.mpr ⟨o, readNumber_eq_ok.mpr ho,
      bind_eq_ok.mpr ⟨_, readNumbers_eq_ok.mpr hws, ?_⟩⟩⟩
    rw [if_pos hlength, hnone]
    exact makeGate_eq_ok.mpr ⟨hkeyword, hg.symm⟩

/-- A gate is read off a line when the words of the line write it. -/
theorem readGate_eq_ok {wireCount : Nat} {text : List Char} {g : Gate} :
    readGate wireCount text = .ok g ↔ g.Words wireCount (Text.words text) := by
  constructor
  · intro h
    unfold readGate at h
    split at h
    · rename_i keyword rest hwords
      split at h
      · rename_i inputs outputs wires hrest
        obtain ⟨hkeyword, hnumbers, hwires⟩ := readGateWords_eq_ok.mp h
        rw [List.reverse_eq_cons_iff, hrest] at hwords
        refine ⟨_, ?_, hnumbers, hwires⟩
        rw [hwords, ← hkeyword, String.toList_ofList]
      · cases h
    · cases h
  · rintro ⟨nums, hwords, hnumbers, hwires⟩
    obtain ⟨inputs, outputs, wires, rfl⟩ := exists_cons_cons hnumbers
    simp only [readGate, hwords, List.reverse_append, List.reverse_singleton, List.singleton_append,
      List.reverse_reverse]
    exact readGateWords_eq_ok.mpr ⟨String.ofList_toList, hnumbers, hwires⟩

/-- On a line that is not blank, the gate that is read is the one the line holds. -/
theorem readGate_trim_eq_ok {wireCount : Nat} {line : List Char} {g : Gate}
    (h : ¬ Text.Blank line) :
    readGate wireCount (Text.trim line) = .ok g ↔
      ∃ ws, Text.Holds line ws ∧ g.Words wireCount ws := by
  rw [readGate_eq_ok, Text.words_trim]
  constructor
  · intro hwords
    exact ⟨_, (Text.words_eq_iff h).mp rfl, hwords⟩
  · rintro ⟨ws, hholds, hwords⟩
    rwa [hholds.words_eq]

/-! ## The text -/

theorem forall₂_congr_left {α β : Type} {R S : α → β → Prop} {xs : List α} {ys : List β}
    (h : ∀ x ∈ xs, ∀ y, R x y ↔ S x y) : List.Forall₂ R xs ys ↔ List.Forall₂ S xs ys := by
  induction xs generalizing ys with
  | nil => rw [List.forall₂_nil_left_iff, List.forall₂_nil_left_iff]
  | cons x xs ih =>
      obtain ⟨hx, hxs⟩ := List.forall_mem_cons.mp h
      simp only [List.forall₂_cons_left_iff, hx, ih hxs]

/-- Lines that are not blank write a netlist when each is read as its part of it. -/
theorem rows_iff {n : Netlist} {first second third : List Char × Nat}
    {rest : List (List Char × Nat)} (h : ∀ l ∈ first :: second :: third :: rest, ¬ Text.Blank l.1) :
    n.Rows first second third rest ↔
      readCounts (Text.trim first.1) = .ok (n.gates.length, n.wireCount) ∧
        readWidths .input (Text.trim second.1) = .ok n.inputWidths ∧
        readWidths .output (Text.trim third.1) = .ok n.outputWidths ∧
        List.Forall₂ (fun l g => g.line = l.1 ∧ readGate n.wireCount l.2 = .ok g.gate)
          (rest.map fun l => (l.2, Text.trim l.1)) n.gates ∧
        n.header = ⟨first.2, second.2, third.2⟩ := by
  simp only [List.forall_mem_cons] at h
  obtain ⟨hfirst, hsecond, hthird, hrest⟩ := h
  have hgates : List.Forall₂ (fun l g => g.StandsOn n.wireCount l) rest n.gates ↔
      List.Forall₂ (fun l g => g.line = l.2 ∧ readGate n.wireCount (Text.trim l.1) = .ok g.gate)
        rest n.gates :=
    forall₂_congr_left fun l hl _ =>
      and_congr_right fun _ => (readGate_trim_eq_ok (hrest l hl)).symm
  rw [readCounts_eq_ok, readWidths_eq_ok, readWidths_eq_ok, readNumbers_trim_eq_ok hfirst,
    readNumbers_trim_eq_ok hsecond, readNumbers_trim_eq_ok hthird, List.forall₂_map_left_iff,
    ← hgates]
  exact ⟨fun h => ⟨h.counts, h.inputs, h.outputs, h.gates, h.header⟩,
    fun ⟨hcounts, hinputs, houtputs, hgates, hheader⟩ =>
      ⟨hcounts, hinputs, houtputs, hgates, hheader⟩⟩

/-- The reader accepts the texts that write a netlist, and gives that netlist. -/
theorem parse_eq_ok_iff (text : String) (n : Netlist) :
    parse text = .ok n ↔ n.Written text.toList := by
  rw [parse, ofLines_eq_ok]
  constructor
  · rintro ⟨counts, inputs, outputs, gates, hlines, h⟩
    obtain ⟨ls, hbroken⟩ := Text.exists_broken text.toList
    rw [hbroken.contentLines_eq, List.map_eq_cons_iff] at hlines
    obtain ⟨first, ls₁, hcounted, rfl, htail⟩ := hlines
    obtain ⟨second, ls₂, rfl, rfl, hlast⟩ := List.map_eq_cons_iff.mp htail
    obtain ⟨third, rest, rfl, rfl, rfl⟩ := List.map_eq_cons_iff.mp hlast
    refine ⟨ls, first, second, third, rest, hbroken, hcounted, (rows_iff fun l hl => ?_).mpr h⟩
    exact Text.not_blank_of_mem_countedLines (hcounted ▸ hl)
  · rintro ⟨ls, first, second, third, rest, hbroken, hlines, hrows⟩
    have hsolid : ∀ l ∈ first :: second :: third :: rest, ¬ Text.Blank l.1 := fun l hl =>
      Text.not_blank_of_mem_countedLines (hlines ▸ hl)
    refine ⟨(first.2, Text.trim first.1), (second.2, Text.trim second.1),
      (third.2, Text.trim third.1), _, ?_, (rows_iff hsolid).mp hrows⟩
    rw [hbroken.contentLines_eq, hlines, List.map_cons, List.map_cons, List.map_cons]

end Netlist

end JointCircuit

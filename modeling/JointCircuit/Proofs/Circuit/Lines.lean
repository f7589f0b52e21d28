import JointCircuit.Proofs.Sequence
import Mathlib.Data.List.Forall2

/-!
# The lines of a netlist

Every gate of a netlist is what a line of its text says, and it holds the number
of that line, counted from one over all lines (`Netlist.stands_of_parse`).  Its
wires are below the number of wires, and that number is an index
(`Netlist.bounds_of_parse`).
-/

namespace JointCircuit

/-- A gate is what the line with its number says. -/
def PlacedGate.Stands (text : String) (wireCount : Nat) (g : PlacedGate) : Prop :=
  0 < g.line ∧ ∃ line, (Text.lines text.toList)[g.line - 1]? = some line ∧
    Netlist.readGate wireCount (Text.trim line) = .ok g.gate

namespace Text

/-- A numbered line is the one at its number. -/
theorem getElem?_of_mem_numberFrom {number : Nat} {line : List Char} :
    ∀ {n : Nat} {ls : List (List Char)}, (number, line) ∈ numberFrom n ls →
      n ≤ number ∧ ls[number - n]? = some line
  | _, [], h => absurd h List.not_mem_nil
  | n, l :: ls, h => by
      rcases List.mem_cons.mp h with heq | h
      · cases heq
        exact ⟨Nat.le_refl _, by rw [Nat.sub_self, List.getElem?_cons_zero]⟩
      · obtain ⟨hle, hget⟩ := getElem?_of_mem_numberFrom h
        obtain ⟨k, rfl⟩ := Nat.exists_eq_add_of_le hle
        refine ⟨by omega, ?_⟩
        rw [Nat.add_sub_cancel_left] at hget
        rw [show n + 1 + k - n = k + 1 by omega, List.getElem?_cons_succ, hget]

/-- A line that counts is a line of the text, trimmed. -/
theorem getElem?_of_mem_contentLines {text trimmed : List Char} {number : Nat}
    (h : (number, trimmed) ∈ contentLines text) :
    0 < number ∧ ∃ line, (lines text)[number - 1]? = some line ∧ trimmed = trim line := by
  obtain ⟨⟨_, line⟩, hmem, heq⟩ := List.mem_map.mp (List.mem_filter.mp h).1
  cases heq
  obtain ⟨hpos, hget⟩ := getElem?_of_mem_numberFrom hmem
  exact ⟨hpos, line, hget, rfl⟩

end Text

/-- In rows that are related element by element, every element on the right has its
partner. -/
theorem exists_of_mem_right {α β : Type} {R : α → β → Prop} {xs : List α} {ys : List β}
    (h : List.Forall₂ R xs ys) {y : β} (hy : y ∈ ys) : ∃ x ∈ xs, R x y := by
  induction h with
  | nil => exact absurd hy List.not_mem_nil
  | @cons x _ xs _ hx _ ih =>
      rcases List.mem_cons.mp hy with rfl | hy
      · exact ⟨x, List.mem_cons_self, hx⟩
      · obtain ⟨x', hmem, hx'⟩ := ih hy
        exact ⟨x', List.mem_cons_of_mem _ hmem, hx'⟩

namespace Netlist

/-! ## Reading a gate -/

theorem readNumber_le {word : List Char} {n : Nat} (h : readNumber word = .ok n) :
    n ≤ maxIndex := by
  unfold readNumber at h
  split at h
  · rename_i m hm
    cases h
    exact Text.number?_le hm
  · cases h

theorem readNumbers_le :
    ∀ {words : List (List Char)} {ns : List Nat}, readNumbers words = .ok ns →
      ∀ n ∈ ns, n ≤ maxIndex
  | [], _, h => by
      cases h
      simp
  | w :: ws, ns, h => by
      obtain ⟨n, hn, h⟩ := bind_eq_ok.mp h
      obtain ⟨ns', hns, h⟩ := bind_eq_ok.mp h
      cases h
      exact List.forall_mem_cons.mpr ⟨readNumber_le hn, readNumbers_le hns⟩

/-- The wires of a gate are those of its line. -/
theorem mem_of_makeGate {keyword : String} {inputs outputs : Nat} {wires : List Nat} {g : Gate}
    (h : makeGate keyword inputs outputs wires = .ok g) :
    g.output ∈ wires ∧ ∀ x ∈ g.operands, x ∈ wires := by
  unfold makeGate at h
  split at h
  · split at h
    · cases h
      simp [Gate.output, Gate.operands]
    · cases h
  · split at h
    · cases h
      simp [Gate.output, Gate.operands]
    · cases h
  · cases h

/-- A gate has only wires below the number of wires. -/
theorem lt_of_readGate {wireCount : Nat} {text : List Char} {g : Gate}
    (h : readGate wireCount text = .ok g) :
    g.output < wireCount ∧ ∀ x ∈ g.operands, x < wireCount := by
  have hwords : ∀ {keyword inputs outputs wires},
      readGateWords wireCount keyword inputs outputs wires = .ok g →
      g.output < wireCount ∧ ∀ x ∈ g.operands, x < wireCount := by
    intro keyword inputs outputs wires h
    obtain ⟨i, _, h⟩ := bind_eq_ok.mp h
    obtain ⟨o, _, h⟩ := bind_eq_ok.mp h
    obtain ⟨ws, _, h⟩ := bind_eq_ok.mp h
    split at h
    · split at h
      · cases h
      · rename_i hnone
        simp only [List.find?_eq_none, decide_eq_true_eq, Nat.not_le] at hnone
        obtain ⟨houtput, hoperands⟩ := mem_of_makeGate h
        exact ⟨hnone _ houtput, fun x hx => hnone _ (hoperands x hx)⟩
    · cases h
  unfold readGate at h
  split at h
  · split at h
    · exact hwords h
    · cases h
  · cases h

/-! ## Reading a netlist -/

/-- The gates are read when there are as many lines as announced, each of them a gate. -/
theorem readGates_eq_ok {wireCount declared last : Nat} :
    ∀ {missing : Nat} {ls : List (Nat × List Char)} {gs : List PlacedGate},
      readGates wireCount declared last missing ls = .ok gs ↔
        gs.length = missing ∧
          List.Forall₂ (fun l g => g.line = l.1 ∧ readGate wireCount l.2 = .ok g.gate) ls gs
  | 0, [], gs => by
      rw [List.forall₂_nil_left_iff, List.length_eq_zero_iff, and_self, readGates, Except.ok.injEq,
        eq_comm]
  | missing + 1, [], gs => by
      constructor
      · intro h
        cases h
      · rintro ⟨hlength, hgates⟩
        rw [List.forall₂_nil_left_iff.mp hgates] at hlength
        cases hlength
  | 0, _ :: _, gs => by
      constructor
      · intro h
        cases h
      · rintro ⟨hlength, hgates⟩
        rw [List.length_eq_zero_iff.mp hlength] at hgates
        cases hgates
  | missing + 1, (line, text) :: rest, gs => by
      constructor
      · intro h
        obtain ⟨gate, hgate, h⟩ := bind_eq_ok.mp h
        obtain ⟨gates, hgates, h⟩ := bind_eq_ok.mp h
        cases h
        obtain ⟨hlength, hrest⟩ := readGates_eq_ok.mp hgates
        exact ⟨by rw [List.length_cons, hlength], .cons ⟨rfl, atLine_eq_ok.mp hgate⟩ hrest⟩
      · rintro ⟨hlength, hgates⟩
        cases hgates with
        | @cons _ g _ gates hg hrest =>
            obtain ⟨hline, hgate⟩ := hg
            refine bind_eq_ok.mpr ⟨g.gate, atLine_eq_ok.mpr hgate, bind_eq_ok.mpr ⟨gates, ?_, ?_⟩⟩
            · exact readGates_eq_ok.mpr ⟨Nat.succ.inj hlength, hrest⟩
            · cases g
              cases hline
              rfl

theorem nextLine_eq_ok {last : Nat} {missing : CircuitFault} {ls rest : List (Nat × List Char)}
    {l : Nat × List Char} : nextLine last missing ls = .ok (l, rest) ↔ ls = l :: rest := by
  cases ls with
  | nil => simp [nextLine]
  | cons l' ls' => simp [nextLine]

/-- A netlist is read from a line of counts, two of widths and the lines of its gates. -/
theorem ofLines_eq_ok {last : Nat} {ls : List (Nat × List Char)} {n : Netlist} :
    ofLines last ls = .ok n ↔
      ∃ counts inputs outputs rest, ls = counts :: inputs :: outputs :: rest ∧
        readCounts counts.2 = .ok (n.gates.length, n.wireCount) ∧
        readWidths .input inputs.2 = .ok n.inputWidths ∧
        readWidths .output outputs.2 = .ok n.outputWidths ∧
        List.Forall₂ (fun l g => g.line = l.1 ∧ readGate n.wireCount l.2 = .ok g.gate)
          rest n.gates ∧
        n.header = ⟨counts.1, inputs.1, outputs.1⟩ := by
  constructor
  · intro h
    obtain ⟨⟨counts, ls₁⟩, hcounts, h⟩ := bind_eq_ok.mp h
    obtain ⟨⟨gateCount, wireCount⟩, hread, h⟩ := bind_eq_ok.mp h
    obtain ⟨⟨inputs, ls₂⟩, hinputs, h⟩ := bind_eq_ok.mp h
    obtain ⟨inputWidths, hinputWidths, h⟩ := bind_eq_ok.mp h
    obtain ⟨⟨outputs, ls₃⟩, houtputs, h⟩ := bind_eq_ok.mp h
    obtain ⟨outputWidths, houtputWidths, h⟩ := bind_eq_ok.mp h
    obtain ⟨gates, hgates, h⟩ := bind_eq_ok.mp h
    cases h
    rw [nextLine_eq_ok] at hcounts hinputs houtputs
    subst hcounts hinputs houtputs
    obtain ⟨rfl, hrest⟩ := readGates_eq_ok.mp hgates
    exact ⟨counts, inputs, outputs, ls₃, rfl, atLine_eq_ok.mp hread, atLine_eq_ok.mp hinputWidths,
      atLine_eq_ok.mp houtputWidths, hrest, rfl⟩
  · rintro ⟨counts, inputs, outputs, rest, rfl, hcounts, hinputs, houtputs, hgates, hheader⟩
    have hread : readGates n.wireCount n.gates.length last n.gates.length rest = .ok n.gates :=
      readGates_eq_ok.mpr ⟨rfl, hgates⟩
    simp only [ofLines, nextLine, ok_bind, hcounts, hinputs, houtputs, atLine, hread, ← hheader]

/-- Every gate of a netlist is what the line with its number says. -/
theorem stands_of_parse {text : String} {n : Netlist} (h : parse text = .ok n) :
    ∀ g ∈ n.gates, g.Stands text n.wireCount := by
  intro g hg
  obtain ⟨counts, inputs, outputs, rest, hlines, _, _, _, hgates, _⟩ := ofLines_eq_ok.mp h
  obtain ⟨⟨_, trimmed⟩, hmem, rfl, hread⟩ := exists_of_mem_right hgates hg
  have hcontent : (g.line, trimmed) ∈ Text.contentLines text.toList := by
    rw [hlines]
    simp [hmem]
  obtain ⟨hpos, line, hget, rfl⟩ := Text.getElem?_of_mem_contentLines hcontent
  exact ⟨hpos, line, hget, hread⟩

/-- The number of wires is an index, and every gate has only wires below it. -/
theorem bounds_of_parse {text : String} {n : Netlist} (h : parse text = .ok n) :
    n.wireCount ≤ maxIndex ∧ ∀ g ∈ n.gates,
      g.gate.output < n.wireCount ∧ ∀ x ∈ g.gate.operands, x < n.wireCount := by
  constructor
  · obtain ⟨counts, _, _, _, _, hread, _⟩ := ofLines_eq_ok.mp h
    obtain ⟨ns, hns, hread⟩ := bind_eq_ok.mp hread
    split at hread
    · cases hread
      exact readNumbers_le hns _ (by simp)
    · cases hread
  · intro g hg
    obtain ⟨_, _, _, hgate⟩ := stands_of_parse h g hg
    exact lt_of_readGate hgate

end Netlist

end JointCircuit

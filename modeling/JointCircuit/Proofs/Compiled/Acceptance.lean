import JointCircuit.Proofs.Circuit.Lines
import JointCircuit.Proofs.Layout.Cover
import JointCircuit.Proofs.Lowering.Order

/-!
# Which setups compile

`Setup.Laid` collects what must hold before the gates are walked, in terms of the
circuit and the parties alone: the text is a netlist, the parties fit the names, there
are as many names as widths, and the inputs lie on wires of their own.  `Setup.Valid`
adds what the walk asks for: every gate reads inputs or what was written before it, no
inner wire is written after an output wire, and the header gives the number of output
wires that are written.

A setup compiles exactly when it is valid.  If it is laid and its gates are not all
allowed, it fails at the line of the first gate that is not, with the rule this gate
breaks.
-/

namespace JointCircuit

namespace Slot

/-- A wire is one of the `width` wires from the first one on. -/
def Spans (t : Slot) (wire : Nat) : Prop := t.wire ≤ wire ∧ wire < t.wire + t.width

theorem Ranked.size_eq {table : NameTable Nat} {widths : List Nat} {slots : List Slot}
    (h : Ranked table widths slots) : table.size = widths.length := by
  have hlen := h.entries.length_eq
  rw [List.length_map] at hlen
  rw [← h.widths, List.length_map, hlen]
  rfl

/-- There are slots by rank when there are as many names as widths. -/
theorem exists_ranked {table : NameTable Nat} {widths : List Nat}
    (h : table.size = widths.length) : ∃ slots, Ranked table widths slots := by
  have hok : ofTable .input table widths = .ok _ := if_pos h
  exact ⟨_, ofTable_eq_ok_iff.mp hok⟩

end Slot

namespace Setup

/-- The values of a setup lie on the wires of its circuit. -/
structure Laid (s : Setup) (n : Netlist) (ins : List Slot) : Prop where
  parse : Netlist.parse s.circuit.text = .ok n
  fits : s.Fits
  inputNames : s.circuit.inputs.size = n.inputWidths.length
  outputNames : s.circuit.outputs.size = n.outputWidths.length
  /-- The slots of the inputs, by rank. -/
  inputs : Slot.Ranked s.circuit.inputs n.inputWidths ins
  apart : ins.Pairwise fun t u => ∀ wire, t.Spans wire → ¬ u.Spans wire
  inside : ∀ t ∈ ins, ∀ wire, t.Spans wire → wire < n.wireCount

/-- A wire belongs to one of the inputs. -/
def InputWire (ins : List Slot) (wire : Nat) : Prop := ∃ t ∈ ins, t.Spans wire

/-- A setup that is laid, with gates that are allowed in their order. -/
structure Valid (s : Setup) (n : Netlist) (ins : List Slot) : Prop extends s.Laid n ins where
  gates : Allowed (InputWire ins) (firstOutputWire s.circuit n.wireCount) n.gates
  written : (n.gates.countP fun g => firstOutputWire s.circuit n.wireCount ≤ g.gate.output) =
    n.outputBits

variable {s : Setup} {n : Netlist} {ins : List Slot} {p : Placement}

/-- A placed wire is a wire of an input. -/
theorem get?_cover (hfits : s.Fits) (hins : Slot.Ranked s.circuit.inputs n.inputWidths ins)
    (hfit : ∀ t ∈ ins, t.wire + t.width ≤ maxIndex)
    (hcover : Placement.coverSlots n.wireCount .empty (s.blockSlots ins) = .ok p) (wire : Nat) :
    (∃ r, p.wires.get? wire = some r) ↔ InputWire ins wire := by
  obtain ⟨_, _, hget⟩ := Placement.coverSlots_ok hcover
  have hperm := blockSlots_perm hfits hins
  rw [hget wire, Placement.empty, IndexMap.get?_empty, Option.or_none]
  constructor
  · rintro ⟨r, hr⟩
    obtain ⟨k, hk, _⟩ := Option.map_eq_some_iff.mp hr
    by_contra hnot
    have hnone : Slot.place? (s.blockSlots ins) 0 wire = none := by
      refine Slot.place?_eq_none.mpr fun t ht hcov => hnot ?_
      have hmem := hperm.mem_iff.mp ht
      exact ⟨t, hmem, (Slot.covers_iff (hfit t hmem)).mp hcov⟩
    rw [hnone] at hk
    cases hk
  · rintro ⟨t, ht, hspan⟩
    cases hk : Slot.place? (s.blockSlots ins) 0 wire with
    | none =>
        have hcov := (Slot.covers_iff (hfit t ht)).mpr hspan
        exact absurd hcov (Slot.place?_eq_none.mp hk t (hperm.mem_iff.mpr ht))
    | some k => exact ⟨_, rfl⟩

/-- Before the first gate the walk knows the wires of the inputs. -/
theorem start_knows (hfits : s.Fits) (hins : Slot.Ranked s.circuit.inputs n.inputWidths ins)
    (hfit : ∀ t ∈ ins, t.wire + t.width ≤ maxIndex)
    (hcover : Placement.coverSlots n.wireCount .empty (s.blockSlots ins) = .ok p)
    (firstOutput : Nat) :
    (Walk.start p.wires p.next).Knows (InputWire ins) firstOutput [] where
  mapped wire := by
    rw [Walk.start, get?_cover hfits hins hfit hcover]
    simp [Readable, Writes]
  saw := by simp [Walk.start]
  count := rfl

/-- The inputs of a setup can be placed when they lie on wires of their own. -/
theorem cover_isOk_iff (hfits : s.Fits) (hins : Slot.Ranked s.circuit.inputs n.inputWidths ins)
    (hfit : ∀ t ∈ ins, t.wire + t.width ≤ maxIndex) :
    (∃ p, Placement.coverSlots n.wireCount .empty (s.blockSlots ins) = .ok p) ↔
      ins.Pairwise (fun t u => ∀ wire, t.Spans wire → ¬ u.Spans wire) ∧
        ∀ t ∈ ins, ∀ wire, t.Spans wire → wire < n.wireCount := by
  have hspans : ∀ t ∈ ins, ∀ wire, t.Covers wire ↔ t.Spans wire :=
    fun t ht wire => Slot.covers_iff (hfit t ht)
  rw [placement_isOk_iff hfits hins]
  refine and_congr ?_ ?_
  · constructor
    · intro h
      refine h.imp_of_mem ?_
      intro t u ht hu hapart wire hspan
      rw [← hspans t ht] at hspan
      rw [← hspans u hu]
      exact hapart wire hspan
    · intro h
      refine h.imp_of_mem ?_
      intro t u ht hu hapart wire hcov
      rw [hspans t ht] at hcov
      rw [hspans u hu]
      exact hapart wire hcov
  · refine forall₂_congr fun t ht => forall_congr' fun wire => ?_
    rw [hspans t ht]

/-- A setup that is laid has a placement and goes on to the walk. -/
theorem Laid.compile_eq (h : s.Laid n ins) (hfit : ∀ t ∈ ins, t.wire + t.width ≤ maxIndex) :
    ∃ outs p, Slot.Ranked s.circuit.outputs n.outputWidths outs ∧
      Placement.coverSlots n.wireCount .empty (s.blockSlots ins) = .ok p ∧
      s.compile = (formatStage (s.walk n p)).map (s.assemble ⟨s.partySlots ins, outs, p⟩) := by
  obtain ⟨outs, houts⟩ := Slot.exists_ranked h.outputNames
  obtain ⟨p, hp⟩ := (cover_isOk_iff h.fits h.inputs hfit).mpr ⟨h.apart, h.inside⟩
  have hlay : s.layOut n = .ok ⟨s.partySlots ins, outs, p⟩ :=
    layOut_eq_ok.mpr ⟨ins, outs, p, h.inputs, houts, hp, rfl⟩
  refine ⟨outs, p, houts, hp, ?_⟩
  simp only [compile, h.parse, check_eq_ok_iff.mpr h.fits, formatStage, Except.mapError, ok_bind,
    hlay]
  cases s.walk n p with
  | error e => rfl
  | ok w => rfl

theorem Compiles.valid {outs : List Slot} {w : Walk} {c : Compiled}
    (h : s.Compiles n ins outs p w c) (hfit : ∀ t ∈ ins, t.wire + t.width ≤ maxIndex) :
    s.Valid n ins := by
  have hknows := start_knows h.fits h.inputs hfit h.cover (firstOutputWire s.circuit n.wireCount)
  obtain ⟨hapart, hinside⟩ := (cover_isOk_iff h.fits h.inputs hfit).mp ⟨p, h.cover⟩
  refine ⟨⟨h.parse, h.fits, h.inputs.size_eq, h.outputs.size_eq, h.inputs, hapart, hinside⟩, ?_, ?_⟩
  · exact (hknows.run_isOk_iff p.next).mp ⟨w, h.run⟩
  · rw [← h.count, (hknows.run h.run).count, List.nil_append]

theorem Valid.compiles (h : s.Valid n ins) (hfit : ∀ t ∈ ins, t.wire + t.width ≤ maxIndex) :
    ∃ c, s.compile = .ok c := by
  obtain ⟨outs, p, houts, hp, hcompile⟩ := h.compile_eq hfit
  have hknows := start_knows h.fits h.inputs hfit hp (firstOutputWire s.circuit n.wireCount)
  obtain ⟨w, hrun⟩ := (hknows.run_isOk_iff p.next).mpr h.gates
  have hcount : w.outputs = n.outputBits := by
    rw [(hknows.run hrun).count, List.nil_append, h.written]
  refine ⟨s.assemble ⟨s.partySlots ins, outs, p⟩ w, ?_⟩
  rw [hcompile, walk_eq_ok.mpr ⟨hrun, hcount⟩]
  rfl

/-- A setup that is laid fails at the first gate that is not allowed. -/
theorem Laid.compile_breaks (h : s.Laid n ins) (hfit : ∀ t ∈ ins, t.wire + t.width ≤ maxIndex)
    {before after : List PlacedGate} {g : PlacedGate} (hsplit : n.gates = before ++ g :: after)
    (hbefore : Allowed (InputWire ins) (firstOutputWire s.circuit n.wireCount) before)
    {fault : CircuitFault}
    (hbreaks : g.gate.Breaks (InputWire ins) (firstOutputWire s.circuit n.wireCount) before fault) :
    s.compile = .error (.format ⟨g.line, fault⟩) := by
  obtain ⟨outs, p, houts, hp, hcompile⟩ := h.compile_eq hfit
  have hknows := start_knows h.fits h.inputs hfit hp (firstOutputWire s.circuit n.wireCount)
  have hrun := hknows.run_breaks p.next hbefore hbreaks after
  rw [hcompile, walk, hsplit, hrun]
  rfl

/-- A setup compiles exactly when it is valid, provided that no input would have a wire
beyond the last index.  A setup whose values are laid over its wires but that has a gate
that is not allowed fails at the first such gate: with the rule this gate breaks, and at
the line of the text the gate stands on. -/
theorem compiles_iff_valid
    (hfit : ∀ n ins, Netlist.parse s.circuit.text = .ok n →
      Slot.Ranked s.circuit.inputs n.inputWidths ins → ∀ t ∈ ins, t.wire + t.width ≤ maxIndex) :
    ((∃ c, s.compile = .ok c) ↔ ∃ n ins, s.Valid n ins) ∧
    ∀ n ins before g after, s.Laid n ins → n.gates = before ++ g :: after →
      Allowed (InputWire ins) (firstOutputWire s.circuit n.wireCount) before →
      ¬ g.gate.Follows (InputWire ins) (firstOutputWire s.circuit n.wireCount) before →
      ∃ fault,
        g.gate.Breaks (InputWire ins) (firstOutputWire s.circuit n.wireCount) before fault ∧
        s.compile = .error (.format ⟨g.line, fault⟩) ∧
        g.Stands s.circuit.text n.wireCount := by
  refine ⟨⟨?_, ?_⟩, ?_⟩
  · rintro ⟨c, hc⟩
    obtain ⟨n, ins, outs, p, w, h⟩ := compile_eq_ok_iff.mp hc
    exact ⟨n, ins, h.valid (hfit n ins h.parse h.inputs)⟩
  · rintro ⟨n, ins, h⟩
    exact h.compiles (hfit n ins h.parse h.inputs)
  · intro n ins before g after h hsplit hbefore hnot
    obtain ⟨fault, hbreaks⟩ := Gate.not_follows_iff.mp hnot
    refine ⟨fault, hbreaks, ?_, ?_⟩
    · exact h.compile_breaks (hfit n ins h.parse h.inputs) hsplit hbefore hbreaks
    · exact Netlist.stands_of_parse h.parse g (by simp [hsplit])

/-! ## Two gates in either order -/

/-- A setup with inputs on the wires 0 and 1 and an output on wire 3. -/
def crossSetup (text : String) : Setup :=
  { circuit :=
      { text, inputs := .ofList [("a", 0), ("b", 1)], outputs := .ofList [("c", 3)] }
    parties := [⟨"alice", ["a"], ["c"]⟩, ⟨"bob", ["b"], []⟩] }

def crossNetlist (gates : List PlacedGate) : Netlist :=
  { wireCount := 4
    inputWidths := [1, 1]
    outputWidths := [1]
    gates
    header := ⟨1, 2, 3⟩ }

def crossInputs : List Slot := [⟨"a", 0, 1⟩, ⟨"b", 1, 1⟩]

section

variable {text : String} {gates : List PlacedGate}

theorem crossSetup_laid (hparse : Netlist.parse text = .ok (crossNetlist gates)) :
    (crossSetup text).Laid (crossNetlist gates) crossInputs where
  parse := hparse
  fits := check_eq_ok_iff.mp (rfl : (crossSetup text).check = .ok ())
  inputNames := rfl
  outputNames := rfl
  inputs := Slot.ofTable_eq_ok_iff.mp (rfl : Slot.ofTable .input _ _ = .ok crossInputs)
  apart := by
    simp only [crossInputs, Slot.Spans, List.pairwise_pair]
    omega
  inside := by
    intro t ht wire hspan
    simp only [crossInputs, List.mem_cons, List.not_mem_nil, or_false] at ht
    obtain ⟨_, hlt⟩ := hspan
    rcases ht with rfl | rfl
    · exact Nat.lt_trans hlt (by decide : 0 + 1 < 4)
    · exact Nat.lt_trans hlt (by decide : 1 + 1 < 4)

theorem crossSetup_fit (hparse : Netlist.parse text = .ok (crossNetlist gates)) (n : Netlist)
    (ins : List Slot) (hn : Netlist.parse (crossSetup text).circuit.text = .ok n)
    (hins : Slot.Ranked (crossSetup text).circuit.inputs n.inputWidths ins) :
    ∀ t ∈ ins, t.wire + t.width ≤ maxIndex := by
  obtain rfl : crossNetlist gates = n := Except.ok.inj (hparse.symm.trans hn)
  obtain rfl : crossInputs = ins := (crossSetup_laid hparse).inputs.unique hins
  decide

theorem inputWire_cross {wire : Nat} : InputWire crossInputs wire ↔ wire < 2 := by
  simp only [InputWire, crossInputs, Slot.Spans, List.mem_cons, List.not_mem_nil, or_false,
    exists_eq_or_imp, exists_eq_left]
  omega

end

/-- A text whose first gate, behind a blank line, reads what the second one writes. -/
def earlyText : String := "2 4\n2 1 1\n1 1\n\n2 1 0 2 3 XOR\n2 1 0 1 2 AND"

/-- The same gates the other way round. -/
def lateText : String := "2 4\n2 1 1\n1 1\n\n2 1 0 1 2 AND\n2 1 0 2 3 XOR"

theorem lateText_valid :
    (crossSetup lateText).Valid
      (crossNetlist [⟨5, .binary .and 0 1 2⟩, ⟨6, .binary .xor 0 2 3⟩]) crossInputs where
  toLaid := crossSetup_laid (by decide +kernel)
  gates := by
    intro before g after hsplit
    have hread : ∀ done, ∀ x < 2, Readable (InputWire crossInputs) done x :=
      fun _ x hx => .inl (inputWire_cross.mpr hx)
    rcases before with _ | ⟨d, before⟩
    · obtain ⟨rfl, _⟩ := List.cons.inj hsplit
      refine ⟨fun _ d hd => absurd hd List.not_mem_nil, fun x hx => hread _ x ?_⟩
      revert x
      decide
    · obtain ⟨rfl, hrest⟩ := List.cons.inj hsplit
      rcases before with _ | ⟨d, before⟩
      · obtain ⟨rfl, _⟩ := List.cons.inj hrest
        refine ⟨fun hinner => absurd hinner (by decide), fun x hx => ?_⟩
        obtain rfl | rfl : x = 0 ∨ x = 2 := by simpa [Gate.operands] using hx
        · exact hread _ 0 (by decide)
        · exact .inr (by decide)
      · cases before <;> cases (List.cons.inj hrest).2
  written := by decide

/-- With the gate that reads too early in front, the setup is refused at its line.  The other
way round it is valid and compiles, with the bit of its output. -/
theorem compiles_iff_valid_early :
    (crossSetup earlyText).compile = .error (.format ⟨5, .readBeforeWritten 2⟩) ∧
      (¬ ∃ n ins, (crossSetup earlyText).Valid n ins) ∧
      ∃ c, (crossSetup lateText).compile = .ok c ∧ c.lowered.outputBits = 1 := by
  have hparse : Netlist.parse earlyText =
      .ok (crossNetlist [⟨5, .binary .xor 0 2 3⟩, ⟨6, .binary .and 0 1 2⟩]) := by decide +kernel
  obtain ⟨hiff, hfirst⟩ := compiles_iff_valid (s := crossSetup earlyText) (crossSetup_fit hparse)
  have hzero : Readable (InputWire crossInputs) [] 0 := .inl (inputWire_cross.mpr (by decide))
  have htwo : ¬ Readable (InputWire crossInputs) [] 2 := by
    rw [Readable, inputWire_cross]
    decide
  obtain ⟨fault, hbreaks, herror, _⟩ := hfirst _ crossInputs [] ⟨5, .binary .xor 0 2 3⟩
    [⟨6, .binary .and 0 1 2⟩] (crossSetup_laid hparse) rfl (by simp [Allowed])
    fun hfollows => htwo (hfollows.reads 2 (by decide))
  have hfault : fault = .readBeforeWritten 2 := by
    cases hbreaks with
    | order inner late =>
        obtain ⟨d, hd, _⟩ := late
        cases hd
    | @reads order before after x split readable unread =>
        cases before with
        | nil =>
            obtain ⟨rfl, _⟩ := List.cons.inj split
            exact absurd hzero unread
        | cons y before =>
            cases before with
            | nil =>
                obtain ⟨rfl, _⟩ := List.cons.inj (List.cons.inj split).2
                rfl
            | cons z before => simp [Gate.operands] at split
  rw [hfault] at herror
  refine ⟨herror, ?_, ?_⟩
  · rw [← hiff, herror]
    rintro ⟨c, hc⟩
    cases hc
  · obtain ⟨c, hc⟩ := ((compiles_iff_valid (s := crossSetup lateText)
      (crossSetup_fit lateText_valid.parse)).1).mpr ⟨_, _, lateText_valid⟩
    obtain ⟨n, ins, outs, p, w, h⟩ := compile_eq_ok_iff.mp hc
    obtain rfl := Except.ok.inj (lateText_valid.parse.symm.trans h.parse)
    refine ⟨c, hc, ?_⟩
    rw [h.result]
    exact h.count

end Setup

end JointCircuit

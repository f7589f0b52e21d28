import JointCircuit.Proofs.Compiled.Acceptance
import JointCircuit.Proofs.Compiled.OutputBlock

/-!
# The map of wires

A compiled setup maps every wire of an input and every wire that a gate writes, and no
other (`Setup.Compiles.newWire?_eq_none_iff`).  Let the bits of the input block lie on
the wires of the inputs (`Memory.ofSlots`).  Then the wire a wire is mapped to has, after
the lowered gates, the bit that the wire itself has after the gates of the netlist.

So the map is right for every wire at once, whether a wire is another name of an earlier
one, was written several times or was copied into the output block.
-/

namespace JointCircuit

/-! ## Bits on the wires of slots -/

/-- The memory with a row of bits on the wires of slots, taken slot by slot. -/
def Memory.ofSlots : List Slot → List Bool → Memory
  | [], _ => .empty
  | t :: ts, bits => (ofSlots ts (bits.drop t.width)).setRow t.wire (bits.take t.width)

theorem Memory.read_setRow (m : Memory) (i : Nat) (vs : List Bool) (j : Nat) :
    Memory.read (m.setRow i vs) j =
      if i ≤ j ∧ j < i + vs.length then vs.getD (j - i) false else m.read j := by
  rw [Memory.read, IndexMap.get?_setRow, List.getD_eq_getElem?_getD]
  split <;> rename_i hle
  · rcases Nat.lt_or_ge (j - i) vs.length with hlt | hge
    · rw [if_pos ⟨hle, by omega⟩, List.getElem?_eq_getElem hlt]
      rfl
    · rw [if_neg (by omega), List.getElem?_eq_none hge, Option.none_or]
      rfl
  · rw [if_neg fun h => hle h.1]
    rfl

/-- A wire of a slot has the bit at its place, any other wire is unset. -/
theorem Memory.read_ofSlots (wire : Nat) :
    ∀ {slots : List Slot} {bits : List Bool} (base : Nat),
      (∀ t ∈ slots, t.wire + t.width ≤ maxIndex) → bits.length = slotBits slots →
      (∀ k, Slot.place? slots base wire = some k →
        (Memory.ofSlots slots bits).read wire = bits.getD (k - base) false) ∧
      (Slot.place? slots base wire = none → (Memory.ofSlots slots bits).read wire = false)
  | [], _, _, _, _ => by simp [ofSlots, Slot.place?]
  | t :: ts, bits, base, hfit, hlen => by
      rw [List.forall_mem_cons] at hfit
      have hlen' : bits.length = t.width + slotBits ts := hlen
      have htake : (bits.take t.width).length = t.width := by
        rw [List.length_take]
        omega
      have hdrop : (bits.drop t.width).length = slotBits ts := by
        rw [List.length_drop]
        omega
      obtain ⟨hplaced, hfree⟩ := read_ofSlots wire (base + t.extent) hfit.2 hdrop
      rw [ofSlots, read_setRow, htake, Slot.place?]
      by_cases hcov : t.Covers wire
      · obtain ⟨hle, hlt⟩ := (Slot.covers_iff hfit.1).mp hcov
        rw [if_pos hcov, if_pos ⟨hle, hlt⟩]
        refine ⟨fun k hk => ?_, fun hnone => by cases hnone⟩
        obtain rfl := Option.some.inj hk
        rw [Nat.add_sub_cancel_left, List.getD_eq_getElem?_getD, List.getD_eq_getElem?_getD,
          List.getElem?_take_of_lt (by omega)]
      · rw [if_neg hcov, if_neg fun h => hcov ((Slot.covers_iff hfit.1).mpr h)]
        refine ⟨fun k hk => ?_, hfree⟩
        have hbase := Slot.le_of_place? hk
        rw [hplaced k hk, List.getD_eq_getElem?_getD, List.getD_eq_getElem?_getD,
          List.getElem?_drop, ← Slot.extent_eq hfit.1]
        congr 2
        omega

namespace Setup

namespace Compiles

variable {s : Setup} {n : Netlist} {ins outs : List Slot} {p : Placement} {w : Walk} {c : Compiled}

/-- The wires that are not mapped are those of no input that no gate writes. -/
theorem newWire?_eq_none_iff (h : s.Compiles n ins outs p w c)
    (hfit : ∀ t ∈ ins, t.wire + t.width ≤ maxIndex) (wire : Nat) :
    c.newWire? wire = none ↔ ¬ InputWire ins wire ∧ ¬ Writes n.gates wire := by
  have hknows := start_knows h.fits h.inputs hfit h.cover (firstOutputWire s.circuit n.wireCount)
  have hmapped := (hknows.run h.run).mapped wire
  rw [List.nil_append, Readable] at hmapped
  rw [← not_or, ← hmapped, h.newWire?_eq, Option.map_eq_none_iff, Option.eq_none_iff_forall_ne_some]
  simp

/-- The memory with the bits of the input block loads them. -/
theorem loads_ofSlots (h : s.Compiles n ins outs p w c)
    (hfit : ∀ t ∈ ins, t.wire + t.width ≤ maxIndex) {bits : List Bool}
    (hlen : bits.length = c.lowered.inputBits) :
    s.Loads ins bits (Memory.ofSlots (s.blockSlots ins) bits) := by
  intro wire k hk
  have hfit' : ∀ t ∈ s.blockSlots ins, t.wire + t.width ≤ maxIndex :=
    fun t ht => hfit t (h.mem_block.mp ht)
  have hread := (Memory.read_ofSlots wire 0 hfit' (hlen.trans h.inputBits_eq_slotBits)).1 k hk
  rwa [Nat.sub_zero] at hread

end Compiles

/-- The map of wires.  A wire is not mapped exactly when it belongs to no input and no gate
writes it.  Otherwise it is mapped to a wire of the lowered circuit, and whatever bits are
given for the input block, this wire has after the lowered gates the bit that the mapped one
has after the gates of the netlist.  These start from the memory with the bits given on the
wires of the inputs, in the order of the input block, and all other wires unset. -/
theorem newWire_simulates {s : Setup} {c : Compiled} {n : Netlist} {ins : List Slot}
    (hcompile : s.compile = .ok c) (hparse : Netlist.parse s.circuit.text = .ok n)
    (hins : Slot.Ranked s.circuit.inputs n.inputWidths ins)
    (hfit : ∀ t ∈ ins, t.wire + t.width ≤ maxIndex) {bits : List Bool}
    (hlen : bits.length = c.lowered.inputBits) (wire : Nat) :
    (c.newWire? wire = none ↔ ¬ InputWire ins wire ∧ ¬ Writes n.gates wire) ∧
    ∀ k, c.newWire? wire = some k → k < c.lowered.wireCount ∧
      (c.lowered.run bits).read k =
        (n.run (Memory.ofSlots (s.blockSlots ins) bits)).read wire := by
  obtain ⟨n', ins', outs, p, w, h⟩ := compile_eq_ok_iff.mp hcompile
  obtain rfl : n = n' := Except.ok.inj (hparse.symm.trans h.parse)
  obtain rfl : ins = ins' := hins.unique h.inputs
  exact ⟨h.newWire?_eq_none_iff hfit wire,
    fun k hk => h.read_newWire (h.loads_ofSlots hfit hlen) hk⟩

/-- The second party of the setup has the first wires, so its two bits are the last of the
block.  Wire 4 is another name of the disjunction on wire 3, which is written again after
that, and nothing is on wire 5. -/
theorem newWire_simulates_rewriting : ∃ c, rewritingSetup.compile = .ok c ∧
    c.lowered.inputBits = 3 ∧ c.newWire? 5 = none ∧
    (∃ k, c.newWire? 4 = some k ∧ (c.lowered.run [true, false, true]).read k = true) ∧
    ∃ k, c.newWire? 3 = some k ∧ (c.lowered.run [true, false, true]).read k = false := by
  obtain ⟨p, w, c, h⟩ := rewritingSetup_compiles
  have hc : rewritingSetup.compile = .ok c := compile_eq_ok_iff.mpr ⟨_, _, _, p, w, h⟩
  have hbits : c.lowered.inputBits = 3 := h.inputBits_eq_slotBits
  have hlen : [true, false, true].length = c.lowered.inputBits := hbits.symm
  have hmap := newWire_simulates hc h.parse h.inputs (by decide) hlen
  have hwritten : ∀ wire b, Writes rewritingNetlist.gates wire →
      (rewritingNetlist.run (Memory.ofSlots (rewritingSetup.blockSlots rewritingInputs)
        [true, false, true])).read wire = b →
      ∃ k, c.newWire? wire = some k ∧ (c.lowered.run [true, false, true]).read k = b := by
    intro wire b hwrites hread
    have hsome : c.newWire? wire ≠ none := fun hnone => ((hmap wire).1.mp hnone).2 hwrites
    obtain ⟨k, hk⟩ := Option.ne_none_iff_exists'.mp hsome
    exact ⟨k, hk, ((hmap wire).2 k hk).2.trans hread⟩
  refine ⟨c, hc, hbits, (hmap 5).1.mpr ⟨?_, by decide⟩, ?_, ?_⟩
  · simp [InputWire, rewritingInputs, Slot.Spans]
  · exact hwritten 4 true (by decide) (by decide)
  · exact hwritten 3 false (by decide) (by decide)

end Setup

end JointCircuit

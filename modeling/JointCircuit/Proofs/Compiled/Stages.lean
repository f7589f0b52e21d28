import JointCircuit.Compiled.Values
import JointCircuit.Proofs.Layout.Placement
import JointCircuit.Proofs.Layout.Rank
import JointCircuit.Proofs.Setup.Fits
import Mathlib.Data.List.Nodup

/-!
# The stages of a compiled setup

A compiled setup is the end of a chain of stages, and `Setup.Compiles` holds what
each of them gave: the netlist of the text, the slots by rank, the placement of
the inputs and the walk over the gates.  `Setup.compile_eq_ok_iff` says that a
setup compiles exactly when there is such a chain.

The slots of the inputs stand in the input block in the order of the parties.
Since the parties list every input once, the block is the row of slots by rank in
another order (`Setup.blockSlots_perm`).

The last section says what is assembled from the stages, field by field.
-/

namespace JointCircuit

/-- Among parties with names of their own each is found under its name. -/
theorem partyIndex?_eq_some {parties : List Party} (hnodup : (parties.map Party.name).Nodup)
    {i : Nat} {p : Party} (hp : parties[i]? = some p) : partyIndex? parties p.name = some i := by
  obtain ⟨hlt, hget⟩ := List.getElem?_eq_some_iff.mp hp
  rw [partyIndex?, List.findIdx?_eq_some_iff_getElem]
  refine ⟨hlt, by simp [hget], fun j hj heq => ?_⟩
  have hname : (parties.map Party.name)[j]? = (parties.map Party.name)[i]? := by
    have hlt' : j < parties.length := Nat.lt_trans hj hlt
    simpa [hlt, hlt', hget] using heq
  have heq := (List.getElem?_inj (by rw [List.length_map]; omega) hnodup).mp hname
  omega

/-- The number of bits on slots is the number of wires they cover. -/
theorem slotBits_eq {slots : List Slot} (h : ∀ t ∈ slots, t.Ends) :
    (slots.map Slot.extent).sum = slotBits slots := by
  rw [slotBits, List.map_congr_left fun t ht => (h t ht).extent_eq]

theorem slotBits_append (ts us : List Slot) : slotBits (ts ++ us) = slotBits ts + slotBits us := by
  simp only [slotBits, List.map_append, List.sum_append]

theorem slotBits_flatten (rows : List (List Slot)) :
    slotBits rows.flatten = (rows.map slotBits).sum := by
  induction rows with
  | nil => rfl
  | cons ts rows ih => rw [List.flatten_cons, slotBits_append, ih, List.map_cons, List.sum_cons]

namespace Setup

/-- The slots of the inputs each party lists. -/
def partySlots (s : Setup) (ins : List Slot) : List (List Slot) :=
  s.parties.map fun p => Slot.select ins p.inputs

/-- The slots of all inputs in the order of the input block. -/
def blockSlots (s : Setup) (ins : List Slot) : List Slot := (s.partySlots ins).flatten

/-- The stages through which a setup was compiled. -/
structure Compiles (s : Setup) (n : Netlist) (ins outs : List Slot) (p : Placement) (w : Walk)
    (c : Compiled) : Prop where
  parse : Netlist.parse s.circuit.text = .ok n
  fits : s.Fits
  /-- The slots of the inputs, by rank. -/
  inputs : Slot.Ranked s.circuit.inputs n.inputWidths ins
  /-- The slots of the outputs, by rank. -/
  outputs : Slot.Ranked s.circuit.outputs n.outputWidths outs
  cover : Placement.coverSlots n.wireCount .empty (s.blockSlots ins) = .ok p
  run : Walk.run p.next (firstOutputWire s.circuit n.wireCount) (Walk.start p.wires p.next)
    n.gates = .ok w
  count : w.outputs = n.outputBits
  result : c = s.assemble ⟨s.partySlots ins, outs, p⟩ w

theorem layOut_eq_ok {s : Setup} {n : Netlist} {l : Layout} :
    s.layOut n = .ok l ↔ ∃ ins outs p, Slot.Ranked s.circuit.inputs n.inputWidths ins ∧
      Slot.Ranked s.circuit.outputs n.outputWidths outs ∧
      Placement.coverSlots n.wireCount .empty (s.blockSlots ins) = .ok p ∧
      l = ⟨s.partySlots ins, outs, p⟩ := by
  simp only [layOut, bind_eq_ok, atLine_eq_ok, Slot.ofTable_eq_ok_iff, Except.ok.injEq]
  constructor
  · rintro ⟨ins, hins, outs, houts, p, hp, rfl⟩
    exact ⟨ins, outs, p, hins, houts, hp, rfl⟩
  · rintro ⟨ins, outs, p, hins, houts, hp, rfl⟩
    exact ⟨ins, hins, outs, houts, p, hp, rfl⟩

theorem walk_eq_ok {s : Setup} {n : Netlist} {p : Placement} {w : Walk} :
    s.walk n p = .ok w ↔
      Walk.run p.next (firstOutputWire s.circuit n.wireCount) (Walk.start p.wires p.next) n.gates
        = .ok w ∧ w.outputs = n.outputBits := by
  rw [walk, bind_eq_ok]
  constructor
  · rintro ⟨w', hrun, h⟩
    split at h
    · cases h
      exact ⟨hrun, ‹_›⟩
    · cases h
  · rintro ⟨hrun, hcount⟩
    exact ⟨w, hrun, if_pos hcount⟩

/-- A setup compiles when each of its stages succeeds. -/
theorem compile_eq_ok_iff {s : Setup} {c : Compiled} :
    s.compile = .ok c ↔ ∃ n ins outs p w, s.Compiles n ins outs p w c := by
  simp only [compile, formatStage, bind_eq_ok, mapError_eq_ok, layOut_eq_ok, walk_eq_ok,
    Except.ok.injEq]
  constructor
  · rintro ⟨n, hparse, ⟨⟩, hcheck, l, ⟨ins, outs, p, hins, houts, hp, rfl⟩, w, ⟨hrun, hcount⟩, rfl⟩
    exact ⟨n, ins, outs, p, w, hparse, check_eq_ok_iff.mp hcheck, hins, houts, hp, hrun, hcount,
      rfl⟩
  · rintro ⟨n, ins, outs, p, w, hparse, hfits, hins, houts, hp, hrun, hcount, rfl⟩
    exact ⟨n, hparse, (), check_eq_ok_iff.mpr hfits, _, ⟨ins, outs, p, hins, houts, hp, rfl⟩, w,
      ⟨hrun, hcount⟩, rfl⟩

/-- The stages of a compiled setup have the netlist of its text and the slots of its inputs. -/
theorem exists_compiles {s : Setup} {c : Compiled} {n : Netlist} {ins : List Slot}
    (hcompile : s.compile = .ok c) (hparse : Netlist.parse s.circuit.text = .ok n)
    (hins : Slot.Ranked s.circuit.inputs n.inputWidths ins) :
    ∃ outs p w, s.Compiles n ins outs p w c := by
  obtain ⟨n', ins', outs, p, w, h⟩ := compile_eq_ok_iff.mp hcompile
  obtain rfl : n = n' := Except.ok.inj (hparse.symm.trans h.parse)
  obtain rfl : ins = ins' := hins.unique h.inputs
  exact ⟨outs, p, w, h⟩

/-! ## Parties and their inputs -/

/-- A party is found under its name at its own index. -/
theorem Fits.partyIndex? {s : Setup} (h : s.Fits) {i : Nat} {p : Party}
    (hp : s.parties[i]? = some p) : JointCircuit.partyIndex? s.parties p.name = some i :=
  partyIndex?_eq_some h.nodup_names hp

theorem blockSlots_eq_flatMap (s : Setup) (ins : List Slot) :
    s.blockSlots ins = s.parties.flatMap fun q => Slot.select ins q.inputs := by
  rw [blockSlots, partySlots, List.flatMap_def]

theorem mem_select {ins : List Slot} {names : List String} {t : Slot} :
    t ∈ Slot.select ins names ↔ t ∈ ins ∧ t.name ∈ names := by
  simp [Slot.select]

/-- The input block holds every slot once. -/
theorem blockSlots_perm {s : Setup} {ins : List Slot} {widths : List Nat} (hfits : s.Fits)
    (hins : Slot.Ranked s.circuit.inputs widths ins) : (s.blockSlots ins).Perm ins := by
  have hnodup : ins.Nodup := List.Nodup.of_map Slot.name hins.nodup_names
  rw [blockSlots_eq_flatMap]
  refine (List.perm_ext_iff_of_nodup ?_ hnodup).mpr ?_
  · rw [List.nodup_flatMap]
    refine ⟨fun q _ => hnodup.filter _, ?_⟩
    have hlisted := (List.nodup_flatMap.mp hfits.nodup_inputs).2
    refine hlisted.imp ?_
    intro q r hdisjoint t hq hr
    exact hdisjoint (mem_select.mp hq).2 (mem_select.mp hr).2
  · intro t
    simp only [List.mem_flatMap, mem_select]
    constructor
    · rintro ⟨_, _, ht, _⟩
      exact ht
    · intro ht
      have hlisted : t.name ∈ listedInputs s.parties :=
        (hfits.mem_inputs _).mpr (hins.mem_names.mpr ⟨t, ht, rfl⟩)
      obtain ⟨q, hq, hmem⟩ := List.mem_flatMap.mp hlisted
      exact ⟨q, hq, ht, hmem⟩

/-- The slots of the input block have the number of bits the header says. -/
theorem slotBits_blockSlots {s : Setup} {n : Netlist} {ins : List Slot} (hfits : s.Fits)
    (hins : Slot.Ranked s.circuit.inputs n.inputWidths ins) :
    slotBits (s.blockSlots ins) = n.inputBits := by
  have hperm := (blockSlots_perm hfits hins).map Slot.width
  rw [slotBits, Netlist.inputBits, ← hins.widths, hperm.sum_nat]

namespace Compiles

variable {s : Setup} {n : Netlist} {ins outs : List Slot} {p : Placement} {w : Walk} {c : Compiled}

theorem parties (h : s.Compiles n ins outs p w c) : c.parties = s.parties := by
  rw [h.result]
  rfl

theorem mem_block (h : s.Compiles n ins outs p w c) {t : Slot} :
    t ∈ s.blockSlots ins ↔ t ∈ ins :=
  (blockSlots_perm h.fits h.inputs).mem_iff

theorem partyIndex?_eq (h : s.Compiles n ins outs p w c) {i : Nat} {q : Party}
    (hi : s.parties[i]? = some q) : c.partyIndex? q.name = some i := by
  rw [Compiled.partyIndex?, h.parties]
  exact h.fits.partyIndex? hi

/-- The values of a party are encoded on the slots it lists. -/
theorem encodeInput_eq (h : s.Compiles n ins outs p w c) {q : Party} (hq : q ∈ s.parties)
    (values : Values) :
    c.encodeInput q.name values = encodeValues q.name (Slot.select ins q.inputs) values := by
  obtain ⟨i, hi⟩ := List.mem_iff_getElem?.mp hq
  have hslots : c.inputs.getD i [] = Slot.select ins q.inputs := by
    rw [h.result]
    simp [assemble, partySlots, List.getD_eq_getElem?_getD, hi]
  rw [Compiled.encodeInput, h.partyIndex?_eq hi]
  simp only [hslots]

/-! ## The assembled circuit -/

theorem partyBits_eq (h : s.Compiles n ins outs p w c) :
    c.lowered.partyBits = (s.partySlots ins).map slotBits := by
  rw [h.result]
  rfl

/-- The input bits of all parties are those on the slots of the input block. -/
theorem inputBits_eq_slotBits (h : s.Compiles n ins outs p w c) :
    c.lowered.inputBits = slotBits (s.blockSlots ins) := by
  rw [LoweredCircuit.inputBits, h.partyBits_eq, blockSlots, slotBits_flatten]

theorem gates_eq (h : s.Compiles n ins outs p w c) :
    c.lowered.gates = w.gates.toList.map (LoweredGate.map (WireRef.resolve w.next)) := by
  rw [h.result]
  rfl

theorem wireCount_eq (h : s.Compiles n ins outs p w c) :
    c.lowered.wireCount = w.next + w.outputs := by
  rw [h.result]
  rfl

theorem outputBits_eq (h : s.Compiles n ins outs p w c) : c.lowered.outputBits = w.outputs := by
  rw [h.result]
  rfl

theorem firstOutput_eq (h : s.Compiles n ins outs p w c) : c.lowered.firstOutput = w.next := by
  rw [h.result]
  exact Nat.add_sub_cancel _ _

theorem newWire?_eq (h : s.Compiles n ins outs p w c) (wire : Nat) :
    c.newWire? wire = (w.wires.get? wire).map (WireRef.resolve w.next) := by
  rw [h.result, Compiled.newWire?, assemble, IndexMap.get?_map]

end Compiles

end Setup

end JointCircuit

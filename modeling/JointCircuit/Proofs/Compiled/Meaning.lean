import JointCircuit.Circuit.Evaluation
import JointCircuit.Proofs.Codec
import JointCircuit.Proofs.Compiled.Stages
import JointCircuit.Proofs.Lowering.Mapping

/-!
# What a compiled setup computes

The meaning of a setup needs no lowering.  The integers given for the inputs lie
on the wires of the circuit (`Memory.Holds`), the gates of the netlist run in the
order of the text, and an output is the natural on its wires (`Slot.valueIn`),
when gates wrote all of them and it is below `2 ^ 64` (`Slot.Legible`).

The compiled setup encodes the inputs party by party, runs the lowered circuit
and decodes its output block.  The main statement is that this has the meaning of
the setup: evaluation succeeds exactly when all outputs are legible, it gives
each its natural, and otherwise it fails at the first output that is not legible.
-/

namespace JointCircuit

/-! ## The meaning of a setup -/

/-- The integer given for an input by the first party that lists it. -/
def givenInteger : List (Party × Values) → String → Int
  | [], _ => 0
  | (p, values) :: rest, name =>
      if name ∈ p.inputs then ((values.find? name).bind Json.int?).getD 0
      else givenInteger rest name

/-- A memory holds integers on slots: on each of its wires a slot has a digit of the
residue modulo two to its width, the most significant first, and all other wires
are unset. -/
structure Memory.Holds (m : Memory) (slots : List Slot) (given : String → Int) : Prop where
  digit : ∀ s ∈ slots, ∀ j < s.width,
    m.read (s.wire + j) = (given s.name % 2 ^ s.width).toNat.testBit (s.width - 1 - j)
  rest : ∀ wire, (∀ s ∈ slots, ¬ (s.wire ≤ wire ∧ wire < s.wire + s.width)) → m.read wire = false

namespace Slot

/-- The natural on the wires of a slot, its first wire being the most significant. -/
def valueIn (m : Memory) (s : Slot) : Nat :=
  ∑ j ∈ Finset.range s.width, 2 ^ (s.width - 1 - j) * Bits.bit (m.read (s.wire + j))

/-- An output can be read: gates write all its wires, and its natural has 64 bits. -/
def Legible (gs : List PlacedGate) (m : Memory) (s : Slot) : Prop :=
  (∀ j < s.width, Writes gs (s.wire + j)) ∧ s.valueIn m < 2 ^ 64

/-- The first of `count` wires from `first` on that no gate writes. -/
def firstUnwritten (gs : List PlacedGate) (first count : Nat) : Option Nat :=
  (List.range' first count).find? fun wire => !decide (Writes gs wire)

/-- Why an output cannot be read: the first of its wires that no gate writes, or its
size. -/
def fault (gs : List PlacedGate) (s : Slot) : EncodingError :=
  match firstUnwritten gs s.wire s.width with
  | some wire => .unmappedOutputWire s.name wire
  | none => .outputOverflow s.name

theorem firstUnwritten_eq_none {gs : List PlacedGate} {first count : Nat} :
    firstUnwritten gs first count = none ↔ ∀ j < count, Writes gs (first + j) := by
  simp only [firstUnwritten, List.find?_eq_none, List.mem_range'_1, Bool.not_eq_true',
    decide_eq_false_iff_not, not_not]
  constructor
  · intro h j hj
    exact h (first + j) ⟨Nat.le_add_right _ _, Nat.add_lt_add_left hj _⟩
  · rintro h wire ⟨hle, hlt⟩
    obtain ⟨j, rfl⟩ := Nat.exists_eq_add_of_le hle
    exact h j (by omega)

theorem firstUnwritten_succ (gs : List PlacedGate) (first count : Nat) :
    firstUnwritten gs first (count + 1) =
      if Writes gs first then firstUnwritten gs (first + 1) count else some first := by
  rw [firstUnwritten, List.range'_succ, List.find?_cons]
  by_cases h : Writes gs first <;> simp [h, firstUnwritten]

theorem value_block (m : Memory) (s : Slot) :
    Bits.value (m.block s.wire s.width) = s.valueIn m := by
  rw [Memory.block, Bits.value_map, valueIn]

end Slot

/-! ## Reading the outputs -/

namespace Compiled

/-- The output block shows the wires from `first` on: those that gates write are in it
with their bits, and the others are not. -/
def Shows (c : Compiled) (block : List Bool) (gs : List PlacedGate) (m : Memory) (first : Nat) :
    Prop :=
  ∀ wire, first ≤ wire →
    (Writes gs wire → ∃ t, c.outputPlace? wire = some t ∧ block.getD t false = m.read wire) ∧
    (¬ Writes gs wire → c.outputPlace? wire = none)

variable {c : Compiled} {block : List Bool} {gs : List PlacedGate} {m : Memory} {first : Nat}

theorem readWires_eq (h : c.Shows block gs m first) (name : String) :
    ∀ (count : Nat) {wire : Nat}, first ≤ wire →
      c.readWires block name count wire =
        match Slot.firstUnwritten gs wire count with
        | some u => .error (.unmappedOutputWire name u)
        | none => .ok (m.block wire count)
  | 0, _, _ => rfl
  | count + 1, wire, hle => by
      have ih := readWires_eq h name count (Nat.le_succ_of_le hle)
      obtain ⟨hwritten, hunwritten⟩ := h wire hle
      rw [readWires, Slot.firstUnwritten_succ]
      by_cases hw : Writes gs wire
      · obtain ⟨t, ht, hbit⟩ := hwritten hw
        rw [ht, if_pos hw, ih]
        cases Slot.firstUnwritten gs (wire + 1) count with
        | some u => rfl
        | none =>
            simp only [ok_bind, hbit]
            rfl
      · rw [hunwritten hw, if_neg hw]

/-- An output that can be read is decoded to its natural, any other gives its fault. -/
theorem decodeSlot_eq (h : c.Shows block gs m first) {o : Slot} (hle : first ≤ o.wire)
    (hfit : o.wire + o.width ≤ maxIndex) :
    (o.Legible gs m → c.decodeSlot block o = .ok (o.valueIn m)) ∧
    (¬ o.Legible gs m → c.decodeSlot block o = .error (o.fault gs)) := by
  have hread := readWires_eq h o.name o.width hle
  rw [decodeSlot, Slot.extent_eq hfit, hread]
  cases hu : Slot.firstUnwritten gs o.wire o.width with
  | some u =>
      have hnot : ¬ ∀ j < o.width, Writes gs (o.wire + j) := fun hall => by
        rw [Slot.firstUnwritten_eq_none.mpr hall] at hu
        cases hu
      refine ⟨fun hl => absurd hl.1 hnot, fun _ => ?_⟩
      rw [Slot.fault, hu]
      rfl
  | none =>
      have hall := Slot.firstUnwritten_eq_none.mp hu
      simp only [ok_bind, Bits.toNat?_eq, Slot.value_block]
      refine ⟨fun hl => by rw [if_pos hl.2], fun hl => ?_⟩
      rw [if_neg fun hlt => hl ⟨hall, hlt⟩, Slot.fault, hu]

/-- Outputs that can all be read are decoded to their naturals. -/
theorem decodeSlots_legible (h : c.Shows block gs m first) :
    ∀ {os : List Slot}, (∀ o ∈ os, first ≤ o.wire) → (∀ o ∈ os, o.wire + o.width ≤ maxIndex) →
      (os.map Slot.name).Nodup → (∀ o ∈ os, o.Legible gs m) →
      ∃ r, c.decodeSlots block os = .ok r ∧
        (∀ o ∈ os, r.find? o.name = some (o.valueIn m)) ∧
        ∀ name, (∀ o ∈ os, o.name ≠ name) → r.find? name = none
  | [], _, _, _, _ =>
      ⟨NameTable.empty, rfl, fun _ ho => absurd ho List.not_mem_nil, fun _ _ => rfl⟩
  | o :: os, hfirst, hfit, hnodup, hleg => by
      rw [List.forall_mem_cons] at hfirst hfit hleg
      obtain ⟨hname, hnodup⟩ := List.nodup_cons.mp hnodup
      obtain ⟨r, hr, hfind, hnone⟩ := decodeSlots_legible h hfirst.2 hfit.2 hnodup hleg.2
      have hslot := (decodeSlot_eq h hfirst.1 hfit.1).1 hleg.1
      refine ⟨r.insert o.name (o.valueIn m), ?_, ?_, fun name habsent => ?_⟩
      · rw [decodeSlots, hslot, ok_bind, hr, ok_bind]
      · refine List.forall_mem_cons.mpr ⟨?_, fun q hq => ?_⟩
        · rw [NameTable.find?_insert, if_pos rfl]
        · have hne : q.name ≠ o.name := fun e => hname (e ▸ List.mem_map_of_mem hq)
          rw [NameTable.find?_insert, if_neg hne]
          exact hfind q hq
      · rw [List.forall_mem_cons] at habsent
        rw [NameTable.find?_insert, if_neg (Ne.symm habsent.1)]
        exact hnone name habsent.2

/-- The first output that cannot be read gives the fault of all. -/
theorem decodeSlots_illegible (h : c.Shows block gs m first) {o : Slot} {after : List Slot}
    (ho : first ≤ o.wire) (hofit : o.wire + o.width ≤ maxIndex) (hbad : ¬ o.Legible gs m) :
    ∀ {before : List Slot}, (∀ b ∈ before, first ≤ b.wire) →
      (∀ b ∈ before, b.wire + b.width ≤ maxIndex) → (∀ b ∈ before, b.Legible gs m) →
      c.decodeSlots block (before ++ o :: after) = .error (o.fault gs)
  | [], _, _, _ => by
      rw [List.nil_append, decodeSlots, (decodeSlot_eq h ho hofit).2 hbad, error_bind]
  | b :: before, hfirst, hfit, hleg => by
      rw [List.forall_mem_cons] at hfirst hfit hleg
      rw [List.cons_append, decodeSlots, (decodeSlot_eq h hfirst.1 hfit.1).1 hleg.1, ok_bind,
        decodeSlots_illegible h ho hofit hbad hfirst.2 hfit.2 hleg.2, error_bind]

end Compiled

/-! ## Writing the inputs -/

/-- The integer given for an input is the one of the party that lists it. -/
theorem givenInteger_eq {name : String} :
    ∀ {entries : List (Party × Values)}, (listedInputs (entries.map Prod.fst)).Nodup →
      ∀ e ∈ entries, name ∈ e.1.inputs →
        givenInteger entries name = ((e.2.find? name).bind Json.int?).getD 0
  | (q, values) :: rest, hnodup, e, he, hname => by
      rw [List.map_cons, listedInputs, List.flatMap_cons, List.nodup_append] at hnodup
      obtain ⟨_, hrest, hapart⟩ := hnodup
      rw [givenInteger]
      rcases List.mem_cons.mp he with rfl | he
      · rw [if_pos hname]
      · have hlater : name ∈ listedInputs (rest.map Prod.fst) :=
          List.mem_flatMap.mpr ⟨e.1, List.mem_map_of_mem he, hname⟩
        rw [if_neg fun hmem => hapart name hmem name hlater rfl]
        exact givenInteger_eq hrest e he hname

theorem encodeValues_eq_ok {party : String} {ss : List Slot} {values : Values} {bits : List Bool}
    (h : encodeValues party ss values = .ok bits) : encodeSlots party values ss = .ok bits := by
  unfold encodeValues at h
  split at h
  · cases h
  · exact h

/-- Parties whose values are accepted are encoded one after another. -/
theorem Compiled.encodeAll_eq_ok {c : Compiled} :
    ∀ {entries : List (Party × Values)},
      (∀ e ∈ entries, ∃ bits, c.encodeInput e.1.name e.2 = .ok bits) →
      ∃ bits, c.encodeAll entries = .ok bits ∧
        ∀ f : Party → List Bool,
          (∀ e ∈ entries, ∀ bits, c.encodeInput e.1.name e.2 = .ok bits → bits = f e.1) →
          bits = (entries.map Prod.fst).flatMap f
  | [], _ => ⟨[], rfl, fun _ _ => rfl⟩
  | (q, values) :: rest, h => by
      rw [List.forall_mem_cons] at h
      obtain ⟨⟨bits, hbits⟩, hrest⟩ := h
      obtain ⟨more, hmore, hall⟩ := Compiled.encodeAll_eq_ok hrest
      refine ⟨bits ++ more, ?_, fun f hf => ?_⟩
      · rw [Compiled.encodeAll, hbits, ok_bind, hmore, ok_bind]
      · rw [List.forall_mem_cons] at hf
        rw [List.map_cons, List.flatMap_cons, hf.1 bits hbits, hall f hf.2]

/-! ## From end to end -/

namespace Setup.Compiles

variable {s : Setup} {n : Netlist} {ins outs : List Slot} {p : Placement} {w : Walk} {c : Compiled}

/-- The bits of an integer on a slot. -/
def digits (given : String → Int) (t : Slot) : List Bool := Bits.ofInt (given t.name) t.width

theorem flatMap_blockSlots (s : Setup) (ins : List Slot) (f : Slot → List Bool) :
    (s.blockSlots ins).flatMap f =
      s.parties.flatMap fun q => (Slot.select ins q.inputs).flatMap f := by
  rw [blockSlots_eq_flatMap, List.flatMap_assoc]

/-- The values of all parties are encoded to the bits of their integers on the slots of
the input block. -/
theorem encodeAll_eq (h : s.Compiles n ins outs p w c) {inputs : List Values}
    (hlen : inputs.length = s.parties.length)
    (haccept : ∀ e ∈ s.parties.zip inputs, ∃ bits, c.encodeInput e.1.name e.2 = .ok bits) :
    c.encodeAll (s.parties.zip inputs) =
      .ok ((s.blockSlots ins).flatMap (digits (givenInteger (s.parties.zip inputs)))) := by
  have hfst : (s.parties.zip inputs).map Prod.fst = s.parties :=
    List.map_fst_zip (Nat.le_of_eq hlen.symm)
  obtain ⟨bits, hbits, hall⟩ := Compiled.encodeAll_eq_ok haccept
  have hparty := hall
    (fun q => (Slot.select ins q.inputs).flatMap (digits (givenInteger (s.parties.zip inputs)))) ?_
  · rw [hbits, hparty, hfst, flatMap_blockSlots]
  · intro e he bits hbits
    have hq : e.1 ∈ s.parties := hfst ▸ List.mem_map_of_mem he
    rw [h.encodeInput_eq hq] at hbits
    obtain ⟨hints, hdigits⟩ := encodeSlots_eq_ok (encodeValues_eq_ok hbits)
    refine hdigits _ fun t ht => ?_
    have hname : t.name ∈ e.1.inputs := by
      simpa [Slot.select] using (List.mem_filter.mp ht).2
    have hnodup : (listedInputs ((s.parties.zip inputs).map Prod.fst)).Nodup :=
      hfst.symm ▸ h.fits.nodup_inputs
    obtain ⟨v, hv⟩ := hints t ht
    rw [givenInteger_eq hnodup e he hname, hv, Option.getD_some]

theorem first_le (h : s.Compiles n ins outs p w c) :
    ∀ o ∈ outs, firstOutputWire s.circuit n.wireCount ≤ o.wire := by
  intro o ho
  have hmem : o.wire ∈ s.circuit.outputs.values := by
    have hentry := (h.outputs.entries.mem_iff).mp (List.mem_map_of_mem (f := Slot.entry) ho)
    exact List.mem_map_of_mem (f := Prod.snd) hentry
  rw [firstOutputWire]
  cases hmin : s.circuit.outputs.values.min? with
  | none =>
      rw [List.min?_eq_none_iff] at hmin
      rw [hmin] at hmem
      cases hmem
  | some a => exact (List.min?_eq_some_iff.mp hmin).2 o.wire hmem

/-- The number of bits on the slots of the input block is that of the placement. -/
theorem next_eq (h : s.Compiles n ins outs p w c) (hends : ∀ t ∈ ins, t.Ends) :
    p.next = slotBits (s.blockSlots ins) := by
  obtain ⟨hnext, _, _⟩ := Placement.coverSlots_ok h.cover
  rw [hnext, Placement.empty, Nat.zero_add,
    slotBits_eq fun t ht => hends t (h.mem_block.mp ht)]

theorem length_flatMap_digits (given : String → Int) (slots : List Slot) :
    (slots.flatMap (digits given)).length = slotBits slots := by
  rw [List.length_flatMap, slotBits]
  exact congrArg List.sum (List.map_congr_left fun t _ => Bits.length_ofInt _ _)

theorem length_digits (h : s.Compiles n ins outs p w c)
    (hfit : ∀ t ∈ ins, t.wire + t.width ≤ maxIndex) (given : String → Int) :
    ((s.blockSlots ins).flatMap (digits given)).length = p.next := by
  rw [h.next_eq fun t ht _ => hfit t ht, length_flatMap_digits]

theorem inputBits_eq (h : s.Compiles n ins outs p w c) (hends : ∀ t ∈ ins, t.Ends) :
    c.lowered.inputBits = p.next := by
  rw [h.next_eq hends, h.inputBits_eq_slotBits]

/-- At the start of the walk every mapped wire has a place in the input block. -/
theorem start_get? (h : s.Compiles n ins outs p w c) {wire : Nat} {r : WireRef}
    (hr : p.wires.get? wire = some r) :
    ∃ k, Slot.place? (s.blockSlots ins) 0 wire = some k ∧ r = .placed k := by
  obtain ⟨_, _, hget⟩ := Placement.coverSlots_ok h.cover
  rw [hget wire, Placement.empty, IndexMap.get?_empty, Option.or_none,
    Option.map_eq_some_iff] at hr
  obtain ⟨k, hk, rfl⟩ := hr
  exact ⟨k, hk, rfl⟩

/-- The walk starts from any memory in which the mapped wires have the bits of their
references. -/
theorem start_tracks (h : s.Compiles n ins outs p w c) (v : WireRef → Bool) {m : Memory}
    (hm : ∀ wire r, p.wires.get? wire = some r → v r = m.read wire) :
    Walk.Tracks v (Walk.start p.wires p.next) m := by
  refine ⟨⟨fun g hg => ?_, fun r hr => ?_⟩, fun wire r hr => ?_, hm⟩
  · simp [Walk.start] at hg
  · cases hr
  · obtain ⟨k, hk, rfl⟩ := h.start_get? hr
    have hlt := Slot.place?_lt hk
    simp only [Walk.Issued, Walk.start, WireRef.Issued, (Placement.coverSlots_ok h.cover).1,
      Placement.empty]
    exact hlt

/-- A memory that holds the integers has the bits of the input block on the mapped wires. -/
theorem start_holds (h : s.Compiles n ins outs p w c)
    (hfit : ∀ t ∈ ins, t.wire + t.width ≤ maxIndex) {given : String → Int} {m : Memory}
    (hm : m.Holds ins given) :
    Walk.Tracks (inputRefs ((s.blockSlots ins).flatMap (digits given)))
      (Walk.start p.wires p.next) m := by
  refine h.start_tracks _ fun wire r hr => ?_
  obtain ⟨k, hk, rfl⟩ := h.start_get? hr
  have hrow : ∀ t ∈ s.blockSlots ins, (digits given t).length = t.extent := by
    intro t ht
    rw [digits, Bits.length_ofInt, Slot.extent_eq (hfit t (h.mem_block.mp ht))]
  obtain ⟨t, ht, hcov, hbit⟩ := Slot.getElem?_place hrow hk
  have ht' : t ∈ ins := h.mem_block.mp ht
  obtain ⟨hle, hlt⟩ := (Slot.covers_iff (hfit t ht')).mp hcov
  have hdigit := hm.digit t ht' (wire - t.wire) (by omega)
  rw [Nat.add_sub_cancel' hle] at hdigit
  rw [Nat.sub_zero, digits, Bits.getElem?_ofInt _ (by omega)] at hbit
  rw [hdigit, inputRefs, List.getD_eq_getElem?_getD, hbit, Option.getD_some]

theorem exists_start_tracks (h : s.Compiles n ins outs p w c) :
    ∃ v m, Walk.Tracks v (Walk.start p.wires p.next) m := by
  refine ⟨inputRefs [], p.wires.map (inputRefs []), h.start_tracks _ fun wire r hr => ?_⟩
  rw [Memory.read, IndexMap.get?_map, hr, Option.map_some, Option.getD_some]

/-- The walk follows the gates on some bits, whatever the inputs are. -/
theorem exists_tracks (h : s.Compiles n ins outs p w c) :
    ∃ v m, Walk.Tracks v w m ∧ p.next ≤ w.next := by
  obtain ⟨_, _, hstart⟩ := h.exists_start_tracks
  exact ⟨_, _, Walk.run_tracks n.gates hstart (Nat.le_refl p.next) h.run⟩

theorem next_le (h : s.Compiles n ins outs p w c) : p.next ≤ w.next := by
  obtain ⟨_, _, _, hle⟩ := h.exists_tracks
  exact hle

/-- The output block of the lowered circuit on the digits of the integers given. -/
def outputBlock (s : Setup) (ins : List Slot) (c : Compiled) (given : String → Int) : List Bool :=
  (c.lowered.run ((s.blockSlots ins).flatMap (digits given))).block c.lowered.firstOutput
    c.lowered.outputBits

/-- A reference has the same bit in the lowered circuit as in the walk. -/
theorem read_run (h : s.Compiles n ins outs p w c)
    (hfit : ∀ t ∈ ins, t.wire + t.width ≤ maxIndex) {given : String → Int} {m : Memory}
    (hm : m.Holds ins given) {r : WireRef} (hr : w.Issued r) :
    (c.lowered.run ((s.blockSlots ins).flatMap (digits given))).read (r.resolve w.next) =
      w.bits (inputRefs ((s.blockSlots ins).flatMap (digits given))) r := by
  obtain ⟨htracks, hnext⟩ :=
    Walk.run_tracks n.gates (h.start_holds hfit hm) (Nat.le_refl p.next) h.run
  have hlen := h.length_digits hfit given
  rw [h.result]
  exact runRefs_resolve htracks.sound.gates
    (fun r _ => read_ofBits_resolve (hlen ▸ hnext) r) r hr

/-- A wire that no gate writes is mapped to its place in the input block. -/
theorem newWire?_of_not_writes (h : s.Compiles n ins outs p w c) {wire : Nat}
    (hwire : ¬ Writes n.gates wire) :
    c.newWire? wire = Slot.place? (s.blockSlots ins) 0 wire := by
  obtain ⟨_, _, hget⟩ := Placement.coverSlots_ok h.cover
  rw [h.newWire?_eq, Walk.run_get?_of_not_writes h.run hwire, Walk.start, hget, Placement.empty,
    IndexMap.get?_empty, Option.or_none, Option.map_map]
  cases Slot.place? (s.blockSlots ins) 0 wire with
  | none => rfl
  | some k => rfl

/-- A wire that no gate writes has no place in the output block. -/
theorem outputPlace?_of_not_writes (h : s.Compiles n ins outs p w c) {wire : Nat}
    (hwire : ¬ Writes n.gates wire) : c.outputPlace? wire = none := by
  -- the wire is mapped by the placement, if at all, so it lies in front of the output block
  obtain ⟨hinput, _, _⟩ := Placement.coverSlots_ok h.cover
  have hnext := h.next_le
  rw [Compiled.outputPlace?, h.newWire?_of_not_writes hwire]
  cases hk : Slot.place? (s.blockSlots ins) 0 wire with
  | none => rfl
  | some k =>
      have hlt : k < w.next := by
        have := Slot.place?_lt hk
        rw [Placement.empty] at hinput
        simp only at hinput
        omega
      simp only [h.firstOutput_eq]
      rw [if_neg (by omega)]

/-- The output block shows the wires from the first named output on as they are after
the gates of the netlist. -/
theorem outputBlock_shows (h : s.Compiles n ins outs p w c)
    (hfit : ∀ t ∈ ins, t.wire + t.width ≤ maxIndex) {given : String → Int} {m : Memory}
    (hm : m.Holds ins given) :
    c.Shows (outputBlock s ins c given) n.gates (n.run m)
      (firstOutputWire s.circuit n.wireCount) := by
  obtain ⟨htracks, _⟩ :=
    Walk.run_tracks n.gates (h.start_holds hfit hm) (Nat.le_refl p.next) h.run
  intro wire hle
  refine ⟨fun hwrites => ?_, fun hnot => ?_⟩
  · obtain ⟨t, ht⟩ := Walk.run_get?_of_writes hle h.run hwrites
    have hissued : t < w.outputs := htracks.issued wire _ ht
    refine ⟨t, ?_, ?_⟩
    · rw [Compiled.outputPlace?, h.newWire?_eq, ht, Option.map_some, h.firstOutput_eq,
        h.outputBits_eq]
      simp only [WireRef.resolve, Nat.le_add_right, Nat.add_sub_cancel_left, hissued, and_self,
        if_true]
    · have hread := h.read_run hfit hm (r := .output t) hissued
      rw [htracks.bit wire _ ht, WireRef.resolve] at hread
      rw [outputBlock, h.firstOutput_eq, h.outputBits_eq, Memory.block, List.getD_eq_getElem?_getD,
        List.getElem?_map, List.getElem?_range' hissued, Nat.one_mul, Option.map_some,
        Option.getD_some, hread]
      rfl
  · exact h.outputPlace?_of_not_writes hnot

/-- The lowered circuit runs on any bits of the input block, and gives its output block. -/
theorem eval_lowered (h : s.Compiles n ins outs p w c)
    (hfit : ∀ t ∈ ins, t.wire + t.width ≤ maxIndex) {bits : List Bool}
    (hlen : bits.length = p.next) :
    c.lowered.eval bits =
      .ok ((c.lowered.run bits).block c.lowered.firstOutput c.lowered.outputBits) := by
  have hnext := h.next_le
  have hinput := h.inputBits_eq fun t ht _ => hfit t ht
  have hwires := h.wireCount_eq
  rw [LoweredCircuit.eval, if_neg (by rw [hlen, hinput]; exact fun h => h rfl),
    if_neg (by omega)]

/-- Evaluation is decoding of the output block on the integers given. -/
theorem eval_eq (h : s.Compiles n ins outs p w c)
    (hfit : ∀ t ∈ ins, t.wire + t.width ≤ maxIndex) {inputs : List Values}
    (hlen : inputs.length = s.parties.length)
    (haccept : ∀ e ∈ s.parties.zip inputs, ∃ bits, c.encodeInput e.1.name e.2 = .ok bits) :
    c.eval inputs =
      (c.decodeSlots (outputBlock s ins c (givenInteger (s.parties.zip inputs))) outs).mapError
        .encoding := by
  have hblock : (outputBlock s ins c (givenInteger (s.parties.zip inputs))).length =
      c.lowered.outputBits := Memory.length_block _ _ _
  have houts : c.outputs = outs := by rw [h.result]; rfl
  rw [Compiled.eval, h.parties, if_neg fun hne => hne hlen, h.encodeAll_eq hlen haccept]
  simp only [Except.mapError, ok_bind, h.eval_lowered hfit (h.length_digits hfit _)]
  rw [← outputBlock, Compiled.decodeOutput, if_neg fun hne => hne hblock, houts]

end Setup.Compiles

/-- A compiled setup computes the meaning of its circuit.  Let `m` hold the integers given
on the slots of the inputs, by rank.  Then evaluation succeeds exactly when gates write
all wires of all outputs and the naturals on them have 64 bits.  It gives every output
the natural on its wires after all gates have run on `m`, and gives nothing else.  If it
fails, it fails with the fault of the first output by rank that cannot be read. -/
theorem eval_eq_meaning {s : Setup} {c : Compiled} {n : Netlist} {ins outs : List Slot}
    {inputs : List Values} {m : Memory} (hcompile : s.compile = .ok c)
    (hparse : Netlist.parse s.circuit.text = .ok n)
    (hins : Slot.Ranked s.circuit.inputs n.inputWidths ins)
    (houts : Slot.Ranked s.circuit.outputs n.outputWidths outs)
    (hfit : ∀ t ∈ ins ++ outs, t.wire + t.width ≤ maxIndex)
    (hlen : inputs.length = s.parties.length)
    (haccept : ∀ e ∈ s.parties.zip inputs, ∃ bits, c.encodeInput e.1.name e.2 = .ok bits)
    (hm : m.Holds ins (givenInteger (s.parties.zip inputs))) :
    ((∃ r, c.eval inputs = .ok r) ↔ ∀ o ∈ outs, o.Legible n.gates (n.run m)) ∧
    (∀ r, c.eval inputs = .ok r →
      (∀ o ∈ outs, r.find? o.name = some (o.valueIn (n.run m))) ∧
      ∀ name, name ∉ s.circuit.outputs.keys → r.find? name = none) ∧
    ∀ before o after, outs = before ++ o :: after →
      (∀ b ∈ before, b.Legible n.gates (n.run m)) → ¬ o.Legible n.gates (n.run m) →
      c.eval inputs = .error (.encoding (o.fault n.gates)) := by
  obtain ⟨n', ins', outs', p, w, h⟩ := Setup.compile_eq_ok_iff.mp hcompile
  obtain rfl : n = n' := Except.ok.inj (hparse.symm.trans h.parse)
  obtain rfl : ins = ins' := hins.unique h.inputs
  obtain rfl : outs = outs' := houts.unique h.outputs
  have hfitIn : ∀ t ∈ ins, t.wire + t.width ≤ maxIndex :=
    fun t ht => hfit t (List.mem_append_left _ ht)
  have hfitOut : ∀ t ∈ outs, t.wire + t.width ≤ maxIndex :=
    fun t ht => hfit t (List.mem_append_right _ ht)
  have hshows := h.outputBlock_shows hfitIn hm
  have hfirst := h.first_le
  rw [h.eval_eq hfitIn hlen haccept]
  have hfail : ∀ before o after, outs = before ++ o :: after →
      (∀ b ∈ before, b.Legible n.gates (n.run m)) → ¬ o.Legible n.gates (n.run m) →
      (c.decodeSlots (Setup.Compiles.outputBlock s ins c (givenInteger (s.parties.zip inputs)))
        outs).mapError .encoding = .error (Compiled.EvalFault.encoding (o.fault n.gates)) := by
    rintro before o after rfl hbefore ho
    simp only [List.forall_mem_append, List.forall_mem_cons] at hfirst hfitOut
    rw [Compiled.decodeSlots_illegible hshows hfirst.2.1 hfitOut.2.1 ho hfirst.1 hfitOut.1 hbefore]
    rfl
  by_cases hall : ∀ o ∈ outs, o.Legible n.gates (n.run m)
  · obtain ⟨r, hr, hfind, hnone⟩ :=
      Compiled.decodeSlots_legible hshows hfirst hfitOut houts.nodup_names hall
    rw [hr] at hfail ⊢
    refine ⟨⟨fun _ => hall, fun _ => ⟨r, rfl⟩⟩, fun r' hr' => ?_, hfail⟩
    cases hr'
    refine ⟨hfind, fun name hname => hnone name fun o ho heq => hname ?_⟩
    exact houts.mem_names.mpr ⟨o, ho, heq⟩
  · obtain ⟨before, o, after, hsplit, hbefore, ho⟩ := exists_first_not hall
    have herror := hfail before o after hsplit hbefore ho
    refine ⟨⟨fun ⟨r, hr⟩ => ?_, fun hgood => absurd hgood hall⟩, fun r hr => ?_, hfail⟩
    · rw [herror] at hr
      cases hr
    · rw [herror] at hr
      cases hr

/-! ## A circuit that rewrites wires -/

/-- A text whose gates overwrite a wire after it was copied and copy into outputs. -/
def rewritingText : String :=
  "6 9\n2 2 1\n2 2 1\n2 1 0 2 3 OR\n1 1 3 4 COPY\n1 1 4 3 NOT\n1 1 4 6 COPY\n"
    ++ "2 1 3 1 7 XOR\n1 1 0 8 COPY"

/-- A setup of this text.  The second party has the input on the first wires. -/
def rewritingSetup : Setup :=
  { circuit :=
      { text := rewritingText
        inputs := .ofList [("x", 0), ("y", 2)]
        outputs := .ofList [("u", 6), ("v", 8)] }
    parties := [⟨"alice", ["y"], ["u"]⟩, ⟨"bob", ["x"], ["v", "u"]⟩] }

/-- The netlist of this text. -/
def rewritingNetlist : Netlist :=
  { wireCount := 9
    inputWidths := [2, 1]
    outputWidths := [2, 1]
    gates :=
      [⟨4, .binary .or 0 2 3⟩, ⟨5, .unary .copy 3 4⟩, ⟨6, .unary .not 4 3⟩,
        ⟨7, .unary .copy 4 6⟩, ⟨8, .binary .xor 3 1 7⟩, ⟨9, .unary .copy 0 8⟩]
    header := ⟨1, 2, 3⟩ }

def rewritingInputs : List Slot := [⟨"x", 0, 2⟩, ⟨"y", 2, 1⟩]

def rewritingOutputs : List Slot := [⟨"u", 6, 2⟩, ⟨"v", 8, 1⟩]

def rewritingValues : List Values :=
  [.ofList [("y", .int 1)], .ofList [("x", .int (-3))]]

theorem rewritingSetup_compiles : ∃ p w c,
    rewritingSetup.Compiles rewritingNetlist rewritingInputs rewritingOutputs p w c := by
  have hparse : Netlist.parse rewritingSetup.circuit.text = .ok rewritingNetlist := by
    decide +kernel
  have hins : Slot.ofTable .input rewritingSetup.circuit.inputs rewritingNetlist.inputWidths =
      .ok rewritingInputs := rfl
  have houts : Slot.ofTable .output rewritingSetup.circuit.outputs
      rewritingNetlist.outputWidths = .ok rewritingOutputs := rfl
  obtain ⟨c, hc⟩ := exists_ok_of_isOk (x := rewritingSetup.compile) (by decide +kernel)
  obtain ⟨n, ins, outs, p, w, h⟩ := Setup.compile_eq_ok_iff.mp hc
  obtain rfl : rewritingNetlist = n := Except.ok.inj (hparse.symm.trans h.parse)
  obtain rfl : rewritingInputs = ins := (Slot.ofTable_eq_ok_iff.mp hins).unique h.inputs
  obtain rfl : rewritingOutputs = outs := (Slot.ofTable_eq_ok_iff.mp houts).unique h.outputs
  exact ⟨p, w, c, h⟩

theorem eval_eq_meaning_rewriting : ∃ c, rewritingSetup.compile = .ok c ∧
    ∃ r, c.eval rewritingValues = .ok r ∧ r.find? "u" = some 3 ∧ r.find? "v" = some 0 := by
  obtain ⟨p, w, c, h⟩ := rewritingSetup_compiles
  have hc : rewritingSetup.compile = .ok c :=
    Setup.compile_eq_ok_iff.mpr ⟨_, _, _, p, w, h⟩
  have haccept : ∀ e ∈ rewritingSetup.parties.zip rewritingValues,
      ∃ bits, c.encodeInput e.1.name e.2 = .ok bits := by
    intro e he
    rw [h.encodeInput_eq (List.of_mem_zip he).1]
    simp only [rewritingSetup, rewritingValues, List.zip_cons_cons, List.zip_nil_right,
      List.mem_cons, List.not_mem_nil, or_false] at he
    rcases he with rfl | rfl
    · exact ⟨[true], rfl⟩
    · exact ⟨[false, true], rfl⟩
  -- the residue of -3 modulo 4 is 1
  have hholds : Memory.Holds ((IndexMap.empty.set 1 true).set 2 true) rewritingInputs
      (givenInteger (rewritingSetup.parties.zip rewritingValues)) := by
    constructor
    · decide
    · intro wire hout
      simp only [rewritingInputs, List.forall_mem_cons] at hout
      rw [Memory.read_set, if_neg (by omega), Memory.read_set, if_neg (by omega),
        Memory.read_empty]
  have hlegible : ∀ o ∈ rewritingOutputs, o.Legible rewritingNetlist.gates
      (rewritingNetlist.run ((IndexMap.empty.set 1 true).set 2 true)) := by
    simp only [rewritingOutputs, List.forall_mem_cons, Slot.Legible]
    decide
  obtain ⟨hok, hvalues, _⟩ :=
    eval_eq_meaning hc h.parse h.inputs h.outputs (by decide) rfl haccept hholds
  obtain ⟨r, hr⟩ := hok.mpr hlegible
  exact ⟨c, hc, r, hr, (hvalues r hr).1 ⟨"u", 6, 2⟩ (by decide),
    (hvalues r hr).1 ⟨"v", 8, 1⟩ (by decide)⟩

end JointCircuit

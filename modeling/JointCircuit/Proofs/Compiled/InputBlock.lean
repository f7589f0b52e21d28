import JointCircuit.Proofs.Circuit.Lines
import JointCircuit.Proofs.Compiled.Meaning
import JointCircuit.Proofs.Layout.Cover

/-!
# The input block

The inputs take the lowest wires of the lowered circuit: party by party, and of each
party slot by slot.  `Setup.InputsPlaced` says that every wire of an input lies where the
widths of the slots before its own put it.

This holds exactly when no input reaches the last index (`Setup.inputsPlaced_iff`).  A
range of wires ends at that index at the latest, so an input that reaches it covers fewer
wires than the header gives it, and it is neither refused nor counted with the wires it
covers.  Then the input bits of the parties are one row, the bit at a place being the
digit of the wire that is mapped to the place.
-/

namespace JointCircuit

namespace Slot

theorem Ends.covers {t : Slot} (h : t.Ends) {j : Nat} (hj : j < t.width) :
    t.Covers (t.wire + j) := by
  refine (covers_iff (h (Nat.zero_lt_of_lt hj))).mpr ⟨Nat.le_add_right _ _, ?_⟩
  exact Nat.add_lt_add_left hj _

theorem Covers.lt_maxIndex {t : Slot} {wire : Nat} (h : t.Covers wire) : wire < maxIndex := by
  obtain ⟨_, hlt⟩ := h
  rw [stop, rangeEnd] at hlt
  omega

/-- A wire of a slot goes behind the wires of the slots before. -/
theorem place?_append {before after : List Slot} {t : Slot} {wire : Nat}
    (hbefore : ∀ u ∈ before, ¬ u.Covers wire) (h : t.Covers wire) (base : Nat) :
    place? (before ++ t :: after) base wire =
      some (base + (before.map extent).sum + (wire - t.wire)) := by
  induction before generalizing base with
  | nil => rw [List.nil_append, place?, if_pos h]; rfl
  | cons u before ih =>
      rw [List.forall_mem_cons] at hbefore
      rw [List.cons_append, place?, if_neg hbefore.1, ih hbefore.2, List.map_cons,
        List.sum_cons, Nat.add_assoc base]

end Slot

/-- The lowered wires of a row of slots, wire by wire. -/
def Compiled.places (c : Compiled) (slots : List Slot) : List (Option Nat) :=
  slots.flatMap fun t => (List.range' t.wire t.width).map c.newWire?

namespace Setup

/-- Every wire of an input lies behind the wires of the inputs before it. -/
def InputsPlaced (s : Setup) (ins : List Slot) (c : Compiled) : Prop :=
  ∀ before t after, s.blockSlots ins = before ++ t :: after →
    ∀ j < t.width, c.newWire? (t.wire + j) = some (slotBits before + j)

namespace Compiles

variable {s : Setup} {n : Netlist} {ins outs : List Slot} {p : Placement} {w : Walk} {c : Compiled}

/-- The inputs lie where their widths put them exactly when none of them reaches the last
index. -/
theorem placed_iff (h : s.Compiles n ins outs p w c)
    (hwrites : ∀ t ∈ ins, ∀ j < t.width, ¬ Writes n.gates (t.wire + j)) :
    s.InputsPlaced ins c ↔ ∀ t ∈ ins, t.Ends := by
  constructor
  · intro hplaced t ht hpos
    by_contra hbeyond
    obtain ⟨before, after, hsplit⟩ := List.append_of_mem (h.mem_block.mpr ht)
    -- the last wire of the slot is mapped, so some slot covers it
    have hlast := hplaced before t after hsplit (t.width - 1) (by omega)
    rw [h.newWire?_of_not_writes (hwrites t ht _ (by omega))] at hlast
    have hcovered : ¬ ∀ u ∈ s.blockSlots ins, ¬ u.Covers (t.wire + (t.width - 1)) := by
      intro hnone
      rw [Slot.place?_eq_none.mpr hnone] at hlast
      cases hlast
    simp only [not_forall, not_not] at hcovered
    obtain ⟨u, _, hcov⟩ := hcovered
    have hlt := hcov.lt_maxIndex
    omega
  · intro hends before t after hsplit j hj
    have hblock : ∀ u ∈ before ++ t :: after, u ∈ ins := by
      rw [← hsplit]
      exact fun u hu => h.mem_block.mp hu
    have ht : t ∈ ins := hblock t (by simp)
    have hapart := (Placement.coverSlots_isOk_iff.mp ⟨p, h.cover⟩).1
    rw [hsplit, List.pairwise_append] at hapart
    have hcov := (hends t ht).covers hj
    have hbefore : ∀ u ∈ before, ¬ u.Covers (t.wire + j) :=
      fun u hu hu' => hapart.2.2 u hu t List.mem_cons_self _ hu' hcov
    rw [h.newWire?_of_not_writes (hwrites t ht j hj), hsplit, Slot.place?_append hbefore hcov,
      slotBits_eq fun u hu => hends u (hblock u (List.mem_append_left _ hu)), Nat.zero_add,
      Nat.add_sub_cancel_left]

/-- The number of input bits is what the header says. -/
theorem inputBits_eq_header (h : s.Compiles n ins outs p w c) :
    c.lowered.inputBits = n.inputBits := by
  rw [h.inputBits_eq_slotBits, slotBits_blockSlots h.fits h.inputs]

/-- The input bits have room on the wires of the lowered circuit. -/
theorem inputBits_le (h : s.Compiles n ins outs p w c) (hends : ∀ t ∈ ins, t.Ends) :
    c.lowered.inputBits ≤ c.lowered.wireCount := by
  rw [h.inputBits_eq hends, h.wireCount_eq]
  exact Nat.le_add_right_of_le h.next_le

/-- Slots that follow one another in the input block have their wires one after another. -/
theorem places_eq (hplaced : s.InputsPlaced ins c) {slots after : List Slot} :
    ∀ before, s.blockSlots ins = before ++ (slots ++ after) →
      c.places slots = (List.range' (slotBits before) (slotBits slots)).map some := by
  induction slots with
  | nil =>
      intro _ _
      rfl
  | cons t slots ih =>
      intro before hsplit
      have hfirst : (List.range' t.wire t.width).map c.newWire? =
          (List.range' (slotBits before) t.width).map some := by
        rw [List.range'_eq_map_range, List.range'_eq_map_range, List.map_map, List.map_map]
        refine List.map_congr_left fun j hj => ?_
        exact hplaced before t (slots ++ after) hsplit j (List.mem_range.mp hj)
      have hrest := ih (before ++ [t]) (by simp [hsplit])
      have hwidth : ∀ us, slotBits (t :: us) = t.width + slotBits us := fun _ => rfl
      have hnext : slotBits (before ++ [t]) = slotBits before + t.width := by
        rw [slotBits_append, hwidth]
        rfl
      rw [Compiled.places] at hrest ⊢
      rw [List.flatMap_cons, hfirst, hrest, hnext, hwidth, ← List.map_append,
        List.range'_append_1]

/-- The wires of a party are its block behind those of the parties before it. -/
theorem party_places (h : s.Compiles n ins outs p w c) (hplaced : s.InputsPlaced ins c) {i : Nat}
    {q : Party} (hq : s.parties[i]? = some q) :
    c.lowered.partyBits[i]? = some (slotBits (Slot.select ins q.inputs)) ∧
      c.places (Slot.select ins q.inputs) =
        (List.range' (c.lowered.partyBits.take i).sum (slotBits (Slot.select ins q.inputs))).map
          some := by
  have hslots : (s.partySlots ins)[i]? = some (Slot.select ins q.inputs) := by
    rw [partySlots, List.getElem?_map, hq, Option.map_some]
  obtain ⟨hlt, hget⟩ := List.getElem?_eq_some_iff.mp hslots
  have hsplit : s.blockSlots ins = ((s.partySlots ins).take i).flatten ++
      (Slot.select ins q.inputs ++ ((s.partySlots ins).drop (i + 1)).flatten) := by
    rw [blockSlots, ← List.flatten_cons, ← List.flatten_append, ← hget,
      ← List.drop_eq_getElem_cons hlt, List.take_append_drop]
  have hstart : slotBits ((s.partySlots ins).take i).flatten =
      (c.lowered.partyBits.take i).sum := by
    rw [slotBits_flatten, h.partyBits_eq, List.map_take]
  refine ⟨?_, ?_⟩
  · rw [h.partyBits_eq, List.getElem?_map, hslots, Option.map_some]
  · rw [← hstart]
    exact places_eq hplaced _ hsplit

/-- The bit at the place of a wire is the digit of the integer given for the wire. -/
theorem digit_at (h : s.Compiles n ins outs p w c) (hplaced : s.InputsPlaced ins c)
    (given : String → Int) {t : Slot} (ht : t ∈ ins) {j : Nat} (hj : j < t.width) {k : Nat}
    (hk : c.newWire? (t.wire + j) = some k) :
    ((s.blockSlots ins).flatMap (digits given))[k]? =
      some ((given t.name % 2 ^ t.width).toNat.testBit (t.width - 1 - j)) := by
  obtain ⟨before, after, hsplit⟩ := List.append_of_mem (h.mem_block.mpr ht)
  have hplace := hplaced before t after hsplit j hj
  obtain rfl : slotBits before + j = k := Option.some.inj (hplace.symm.trans hk)
  have hlen := length_flatMap_digits given before
  rw [hsplit, List.flatMap_append, List.flatMap_cons, List.getElem?_append_right (by omega), hlen,
    Nat.add_sub_cancel_left, List.getElem?_append_left (by rwa [digits, Bits.length_ofInt]),
    digits, Bits.getElem?_ofInt _ hj]

end Compiles

/-- Where the inputs lie when no gate writes a wire of an input.  They lie where their
widths put them exactly when none of them reaches the last index.  In that case the
wires of a party are a block behind those of the parties before it, the blocks together
have the bits that the header says and fit on the lowered wires, and of the bits encoded
for all parties the one at a place is the digit of the wire mapped to this place. -/
theorem inputsPlaced_iff {s : Setup} {c : Compiled} {n : Netlist} {ins : List Slot}
    (hcompile : s.compile = .ok c) (hparse : Netlist.parse s.circuit.text = .ok n)
    (hins : Slot.Ranked s.circuit.inputs n.inputWidths ins)
    (hwrites : ∀ t ∈ ins, ∀ j < t.width, ¬ Writes n.gates (t.wire + j)) :
    (s.InputsPlaced ins c ↔ ∀ t ∈ ins, t.Ends) ∧
    (s.InputsPlaced ins c →
      (∀ i q, s.parties[i]? = some q → ∃ bits, c.lowered.partyBits[i]? = some bits ∧
        c.places (Slot.select ins q.inputs) =
          (List.range' (c.lowered.partyBits.take i).sum bits).map some) ∧
      c.lowered.inputBits = n.inputBits ∧ n.inputBits ≤ c.lowered.wireCount ∧
      ∀ inputs : List Values, inputs.length = s.parties.length →
        (∀ e ∈ s.parties.zip inputs, ∃ bits, c.encodeInput e.1.name e.2 = .ok bits) →
        ∃ bits, c.encodeAll (s.parties.zip inputs) = .ok bits ∧
          bits.length = n.inputBits ∧
          ∀ t ∈ ins, ∀ j < t.width, ∀ k, c.newWire? (t.wire + j) = some k →
            bits[k]? = some ((givenInteger (s.parties.zip inputs) t.name %
              2 ^ t.width).toNat.testBit (t.width - 1 - j))) := by
  obtain ⟨n', ins', outs, p, w, h⟩ := compile_eq_ok_iff.mp hcompile
  obtain rfl : n = n' := Except.ok.inj (hparse.symm.trans h.parse)
  obtain rfl : ins = ins' := hins.unique h.inputs
  have hiff := h.placed_iff hwrites
  refine ⟨hiff, fun hplaced => ⟨?_, h.inputBits_eq_header, ?_, ?_⟩⟩
  · intro i q hq
    exact ⟨_, h.party_places hplaced hq⟩
  · rw [← h.inputBits_eq_header]
    exact h.inputBits_le (hiff.mp hplaced)
  · intro inputs hlen haccept
    refine ⟨_, h.encodeAll_eq hlen haccept, ?_, ?_⟩
    · rw [← h.inputBits_eq_header, h.inputBits_eq_slotBits, Compiles.length_flatMap_digits]
    · intro t ht j hj k hk
      exact h.digit_at hplaced _ ht hj hk

theorem inputsPlaced_iff_rewriting : ∃ c, rewritingSetup.compile = .ok c ∧
    c.places [⟨"y", 2, 1⟩] = [some 0] ∧ c.places [⟨"x", 0, 2⟩] = [some 1, some 2] := by
  obtain ⟨p, w, c, h⟩ := rewritingSetup_compiles
  have hc : rewritingSetup.compile = .ok c := compile_eq_ok_iff.mpr ⟨_, _, _, p, w, h⟩
  obtain ⟨hiff, hlayout⟩ := inputsPlaced_iff hc h.parse h.inputs (by decide)
  obtain ⟨hparties, _⟩ := hlayout (hiff.mpr fun t ht _ => by revert t; decide)
  have hbits : c.lowered.partyBits = [1, 2] := by
    rw [h.result]
    rfl
  rw [h.partyBits_eq] at hparties
  obtain ⟨alice, halice, hy⟩ := hparties 0 ⟨"alice", ["y"], ["u"]⟩ rfl
  obtain ⟨bob, hbob, hx⟩ := hparties 1 ⟨"bob", ["x"], ["v", "u"]⟩ rfl
  obtain rfl : 1 = alice := Option.some.inj halice
  obtain rfl : 2 = bob := Option.some.inj hbob
  exact ⟨c, hc, hy, hx⟩

/-! ## An input on the last index -/

/-- A setup whose second input is named on the last index. -/
def lastIndexSetup : Setup :=
  { circuit :=
      { text := "1 3\n2 1 1\n1 1\n1 1 0 2 NOT"
        inputs := .ofList [("a", 0), ("b", maxIndex)]
        outputs := .ofList [("c", 2)] }
    parties := [⟨"p0", ["a"], ["c"]⟩, ⟨"p1", ["b"], []⟩] }

/-- The input on the last index is counted but has no place. -/
theorem not_inputsPlaced_lastIndex : ∃ n ins c, lastIndexSetup.compile = .ok c ∧
    Netlist.parse lastIndexSetup.circuit.text = .ok n ∧
    Slot.Ranked lastIndexSetup.circuit.inputs n.inputWidths ins ∧
    (∀ t ∈ ins, ∀ j < t.width, ¬ Writes n.gates (t.wire + j)) ∧
    c.lowered.partyBits = [1, 1] ∧ c.newWire? maxIndex = none ∧
    ¬ lastIndexSetup.InputsPlaced ins c := by
  have hparse : Netlist.parse lastIndexSetup.circuit.text =
      .ok ⟨3, [1, 1], [1], [⟨4, .unary .not 0 2⟩], ⟨1, 2, 3⟩⟩ := by decide +kernel
  have hins : Slot.Ranked lastIndexSetup.circuit.inputs [1, 1] [⟨"a", 0, 1⟩, ⟨"b", maxIndex, 1⟩] :=
    Slot.ofTable_eq_ok_iff.mp (rfl : Slot.ofTable .input _ _ = .ok _)
  obtain ⟨c, hc⟩ := exists_ok_of_isOk (x := lastIndexSetup.compile) (by decide +kernel)
  obtain ⟨n, ins, outs, p, w, h⟩ := compile_eq_ok_iff.mp hc
  obtain rfl := Except.ok.inj (hparse.symm.trans h.parse)
  obtain rfl := hins.unique h.inputs
  have hwrites : ∀ t ∈ [(⟨"a", 0, 1⟩ : Slot), ⟨"b", maxIndex, 1⟩], ∀ j < t.width,
      ¬ Writes [⟨4, .unary .not 0 2⟩] (t.wire + j) := by decide
  refine ⟨_, _, c, hc, hparse, hins, hwrites, ?_, ?_, ?_⟩
  · rw [h.result]
    rfl
  · rw [h.newWire?_of_not_writes (by decide)]
    rfl
  · rw [h.placed_iff hwrites]
    intro hends
    exact absurd (hends ⟨"b", maxIndex, 1⟩ (by simp) (by decide)) (by decide)

end Setup

end JointCircuit

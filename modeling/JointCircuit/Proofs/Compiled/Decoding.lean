import JointCircuit.Proofs.Circuit.Lines
import JointCircuit.Proofs.Compiled.OutputBlock

/-!
# What decoding reads

A result is made of the bits on the wires of an output and of nothing else.
`Slot.DecodedFrom` says that every wire of an output is a wire of the circuit that a gate
writes, that it has a place in the output block, and that the result is the natural which
the bits at these places write.

When decoding succeeds, this holds of an output exactly when the output ends before the
last index, and an output that ends there and has a wire that no gate writes makes
decoding fail (`Setup.decodedFrom_iff`).  Decoding is taken apart for any row of bits of
the right length, whether the circuit can give it or not.

An output that reaches the last index is cut off there, so it is decoded from fewer wires
than the header gives it (`Setup.not_decodedFrom_lastIndex`).
-/

namespace JointCircuit

/-- An output is decoded from its wires, on which gates write. -/
def Slot.DecodedFrom (o : Slot) (c : Compiled) (n : Netlist) (block : List Bool) (r : Results) :
    Prop :=
  ∃ place : Nat → Nat,
    (∀ j < o.width, o.wire + j < n.wireCount ∧ Writes n.gates (o.wire + j) ∧
      c.newWire? (o.wire + j) = some (c.lowered.firstOutput + place j) ∧
      place j < c.lowered.outputBits) ∧
    r.find? o.name = some (∑ j ∈ Finset.range o.width,
      2 ^ (o.width - 1 - j) * Bits.bit (block.getD (place j) false))

namespace Compiled

variable {c : Compiled} {block : List Bool}

/-- A place in the output block is that of a lowered wire in it. -/
theorem outputPlace?_eq_some {wire k : Nat} :
    c.outputPlace? wire = some k ↔
      c.newWire? wire = some (c.lowered.firstOutput + k) ∧ k < c.lowered.outputBits := by
  rw [outputPlace?]
  cases c.newWire? wire with
  | none => simp
  | some w =>
      simp only [Option.ite_none_right_eq_some, Option.some.injEq]
      omega

/-- An output is decoded to the natural that the bits at the places of its wires write. -/
theorem decodeSlot_eq_ok {o : Slot} {v : Nat} (h : c.decodeSlot block o = .ok v) :
    ∃ place : Nat → Nat, (∀ j < o.extent, c.outputPlace? (o.wire + j) = some (place j)) ∧
      v = ∑ j ∈ Finset.range o.extent, 2 ^ (o.extent - 1 - j) *
        Bits.bit (block.getD (place j) false) := by
  obtain ⟨bits, hbits, h⟩ := bind_eq_ok.mp h
  have hvalue : v = Bits.value bits := by
    rw [Bits.toNat?_eq] at h
    by_cases hsmall : Bits.value bits < 2 ^ 64
    · rw [if_pos hsmall] at h
      exact (Except.ok.inj h).symm
    · rw [if_neg hsmall] at h
      cases h
  rw [readWires_eq_map] at hbits
  cases hplaces : c.readPlaces o.name o.extent o.wire with
  | error e =>
      rw [hplaces] at hbits
      cases hbits
  | ok ps =>
      rw [hplaces] at hbits
      cases hbits
      obtain ⟨hlength, hget⟩ := getElem?_readPlaces hplaces
      have hplace : ∀ j < o.extent, ps[j]? = some (ps.getD j 0) := fun j hj => by
        rw [List.getD_eq_getElem?_getD, List.getElem?_eq_getElem (hlength ▸ hj), Option.getD_some]
      refine ⟨fun j => ps.getD j 0, fun j hj => (hget j hj).symm.trans (hplace j hj), ?_⟩
      rw [hvalue, Bits.value_eq_sum, List.length_map, hlength]
      refine Finset.sum_congr rfl fun j hj => ?_
      rw [List.getD_eq_getElem?_getD, List.getElem?_map, hplace j (Finset.mem_range.mp hj),
        Option.map_some, Option.getD_some]

/-- Outputs with names of their own are decoded one by one. -/
theorem decodeSlots_eq_ok :
    ∀ {os : List Slot} {r : Results}, (os.map Slot.name).Nodup → c.decodeSlots block os = .ok r →
      ∀ o ∈ os, ∃ v, c.decodeSlot block o = .ok v ∧ r.find? o.name = some v
  | [], _, _, _, _, ho => absurd ho List.not_mem_nil
  | o :: os, r, hnodup, h, q, hq => by
      obtain ⟨hname, hnodup⟩ := List.nodup_cons.mp hnodup
      obtain ⟨v, hv, h⟩ := bind_eq_ok.mp h
      obtain ⟨rest, hrest, h⟩ := bind_eq_ok.mp h
      cases h
      rcases List.mem_cons.mp hq with rfl | hq
      · exact ⟨v, hv, by rw [NameTable.find?_insert, if_pos rfl]⟩
      · obtain ⟨u, hu, hfind⟩ := decodeSlots_eq_ok hnodup hrest q hq
        have hne : q.name ≠ o.name := fun e => hname (e ▸ List.mem_map_of_mem hq)
        exact ⟨u, hu, by rw [NameTable.find?_insert, if_neg hne, hfind]⟩

end Compiled

namespace Setup

namespace Compiles

variable {s : Setup} {n : Netlist} {ins outs : List Slot} {p : Placement} {w : Walk} {c : Compiled}
variable {block : List Bool}

theorem outputs_eq (h : s.Compiles n ins outs p w c) : c.outputs = outs := by
  rw [h.result]
  rfl

/-- Every output of a result was decoded on the wires it covers. -/
theorem decodeOutput_eq_ok (h : s.Compiles n ins outs p w c) {r : Results}
    (hr : c.decodeOutput block = .ok r) :
    ∀ o ∈ outs, ∃ v, c.decodeSlot block o = .ok v ∧ r.find? o.name = some v := by
  rw [Compiled.decodeOutput] at hr
  split at hr
  · cases hr
  · exact Compiled.decodeSlots_eq_ok h.outputs.nodup_names (h.outputs_eq ▸ hr)

/-- A wire with a place in the output block is a wire of the circuit that a gate writes. -/
theorem writes_of_outputPlace? (h : s.Compiles n ins outs p w c) {wire k : Nat}
    (hk : c.outputPlace? wire = some k) : wire < n.wireCount ∧ Writes n.gates wire := by
  have hwrites : Writes n.gates wire := by
    by_contra hnot
    rw [h.outputPlace?_of_not_writes hnot] at hk
    cases hk
  refine ⟨?_, hwrites⟩
  obtain ⟨g, hg, rfl⟩ := hwrites
  exact ((Netlist.bounds_of_parse h.parse).2 g hg).1

/-- When decoding succeeds, an output is decoded from its wires exactly when it ends before
the last index. -/
theorem decodedFrom_iff_ends (h : s.Compiles n ins outs p w c) {r : Results}
    (hr : c.decodeOutput block = .ok r) {o : Slot} (ho : o ∈ outs) :
    o.DecodedFrom c n block r ↔ o.Ends := by
  obtain ⟨hindex, _⟩ := Netlist.bounds_of_parse h.parse
  constructor
  · rintro ⟨place, hplace, _⟩ hpos
    have hlast := (hplace (o.width - 1) (by omega)).1
    omega
  · intro hends
    obtain ⟨v, hv, hfind⟩ := h.decodeOutput_eq_ok hr o ho
    obtain ⟨place, hplace, rfl⟩ := Compiled.decodeSlot_eq_ok hv
    rw [hends.extent_eq] at hplace hfind
    refine ⟨place, fun j hj => ?_, hfind⟩
    obtain ⟨hwire, hwrites⟩ := h.writes_of_outputPlace? (hplace j hj)
    obtain ⟨hnew, hlt⟩ := Compiled.outputPlace?_eq_some.mp (hplace j hj)
    exact ⟨hwire, hwrites, hnew, hlt⟩

/-- Decoding fails at an output with a wire that no gate writes. -/
theorem decodeOutput_eq_error (h : s.Compiles n ins outs p w c) {o : Slot} (ho : o ∈ outs)
    (hends : o.Ends) {j : Nat} (hj : j < o.width) (hwire : ¬ Writes n.gates (o.wire + j)) :
    ∃ e, c.decodeOutput block = .error e := by
  cases hr : c.decodeOutput block with
  | error e => exact ⟨e, rfl⟩
  | ok r =>
      obtain ⟨_, hplace, _⟩ := (h.decodedFrom_iff_ends hr ho).mpr hends
      exact absurd (hplace j hj).2.1 hwire

end Compiles

/-- What a result is made of.  When decoding of a row of bits succeeds, an output is decoded
from its own wires, all of them wires of the circuit that gates write, exactly when it ends
before the last index.  An output that does and has a wire that no gate writes makes
decoding of every row fail. -/
theorem decodedFrom_iff {s : Setup} {c : Compiled} {n : Netlist} {outs : List Slot}
    {block : List Bool} (hcompile : s.compile = .ok c)
    (hparse : Netlist.parse s.circuit.text = .ok n)
    (houts : Slot.Ranked s.circuit.outputs n.outputWidths outs) :
    (∀ r, c.decodeOutput block = .ok r →
      ∀ o ∈ outs, o.DecodedFrom c n block r ↔ o.Ends) ∧
    ∀ o ∈ outs, o.Ends → (∃ j < o.width, ¬ Writes n.gates (o.wire + j)) →
      ∃ e, c.decodeOutput block = .error e := by
  obtain ⟨n', ins, outs', p, w, h⟩ := compile_eq_ok_iff.mp hcompile
  obtain rfl : n = n' := Except.ok.inj (hparse.symm.trans h.parse)
  obtain rfl : outs = outs' := houts.unique h.outputs
  refine ⟨fun r hr o ho => h.decodedFrom_iff_ends hr ho, ?_⟩
  rintro o ho hends ⟨j, hj, hwire⟩
  exact h.decodeOutput_eq_error ho hends hj hwire

/-- A setup whose outputs are written has them decoded from their wires, and one with an
output wire that no gate writes has nothing decoded. -/
theorem decodedFrom_iff_rewriting :
    (∃ c r, rewritingSetup.compile = .ok c ∧ c.decodeOutput [true, false, true] = .ok r ∧
      Slot.DecodedFrom ⟨"u", 6, 2⟩ c rewritingNetlist [true, false, true] r) ∧
    ∃ c e, overwritingSetup.compile = .ok c ∧ c.decodeOutput [true, false] = .error e := by
  constructor
  · obtain ⟨c, hc, hok⟩ := exists_ok_and_of_any (x := rewritingSetup.compile)
      (P := fun c => (c.decodeOutput [true, false, true]).isOk = true) (by decide +kernel)
    obtain ⟨r, hr⟩ := exists_ok_of_isOk hok
    obtain ⟨_, _, _, h⟩ := rewritingSetup_compiles
    have hiff := (decodedFrom_iff hc h.parse h.outputs).1 r hr ⟨"u", 6, 2⟩ (by decide)
    exact ⟨c, r, hc, hr, hiff.mpr fun _ => by decide⟩
  · obtain ⟨c, hc⟩ := exists_ok_of_isOk (x := overwritingSetup.compile) (by decide +kernel)
    have hparse : Netlist.parse overwritingSetup.circuit.text = .ok overwritingNetlist := by
      decide +kernel
    have houts : Slot.Ranked overwritingSetup.circuit.outputs [2] [⟨"c", 2, 2⟩] :=
      Slot.ofTable_eq_ok_iff.mp (rfl : Slot.ofTable .output _ _ = .ok _)
    obtain ⟨e, he⟩ : ∃ e, c.decodeOutput [true, false] = .error e :=
      (decodedFrom_iff hc hparse houts).2 ⟨"c", 2, 2⟩ (by simp) (fun _ => by decide)
        ⟨1, by decide, by decide⟩
    exact ⟨c, e, hc, he⟩

/-! ## An output on the last index -/

/-- A setup whose second output is named on the last index. -/
def lastOutputSetup : Setup :=
  { circuit :=
      { text := "2 4\n2 1 1\n2 1 1\n2 1 0 1 2 AND\n2 1 0 1 3 XOR"
        inputs := .ofList [("a", 0), ("b", 1)]
        outputs := .ofList [("c", 2), ("d", maxIndex)] }
    parties := [⟨"p0", ["a"], ["c"]⟩, ⟨"p1", ["b"], ["d"]⟩] }

/-- The output on the last index is decoded, though no gate writes its wire and the circuit
does not have it. -/
theorem not_decodedFrom_lastIndex : ∃ n outs c r, lastOutputSetup.compile = .ok c ∧
    Netlist.parse lastOutputSetup.circuit.text = .ok n ∧
    Slot.Ranked lastOutputSetup.circuit.outputs n.outputWidths outs ∧
    c.decodeOutput [true, false] = .ok r ∧ ⟨"d", maxIndex, 1⟩ ∈ outs ∧
    r.find? "d" = some 0 ∧ ¬ Writes n.gates maxIndex ∧
    ¬ Slot.DecodedFrom ⟨"d", maxIndex, 1⟩ c n [true, false] r := by
  have hparse : Netlist.parse lastOutputSetup.circuit.text =
      .ok ⟨4, [1, 1], [1, 1], [⟨4, .binary .and 0 1 2⟩, ⟨5, .binary .xor 0 1 3⟩], ⟨1, 2, 3⟩⟩ := by
    decide +kernel
  have houts : Slot.Ranked lastOutputSetup.circuit.outputs [1, 1]
      [⟨"c", 2, 1⟩, ⟨"d", maxIndex, 1⟩] :=
    Slot.ofTable_eq_ok_iff.mp (rfl : Slot.ofTable .output _ _ = .ok _)
  obtain ⟨c, hc, hany⟩ := exists_ok_and_of_any (x := lastOutputSetup.compile)
    (P := fun c => (c.decodeOutput [true, false]).toOption.any
      (fun r => decide (r.find? "d" = some 0)) = true) (by decide +kernel)
  obtain ⟨r, hr, hfind⟩ := exists_ok_and_of_any hany
  have hunwritten : ¬ Writes [⟨4, .binary .and 0 1 2⟩, ⟨5, .binary .xor 0 1 3⟩] maxIndex := by
    decide
  refine ⟨_, _, c, r, hc, hparse, houts, hr, by simp, hfind, hunwritten, ?_⟩
  rintro ⟨_, hplace, _⟩
  exact hunwritten (hplace 0 Nat.one_pos).2.1

end Setup

end JointCircuit

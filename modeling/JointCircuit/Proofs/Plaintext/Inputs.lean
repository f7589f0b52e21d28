import JointCircuit.Proofs.Compiled.Meaning
import JointCircuit.Proofs.Plaintext.Position

/-!
# The computation on accepted inputs

Parties of a compiled setup whose values are accepted compute something together
(`Setup.Compiles.computation`): the lowered circuit runs on the bits of all of them, and
decoding its output block is the evaluation of the setup on their values.
-/

namespace JointCircuit

/-- The input bits of parties are encoded one after another. -/
theorem Compiled.encodeAll_range {c : Compiled} :
    ∀ (entries : List (Party × Values)) (bits : Nat → List Bool),
      (∀ i (hi : i < entries.length),
        c.encodeInput entries[i].1.name entries[i].2 = .ok (bits i)) →
      c.encodeAll entries = .ok ((List.range entries.length).flatMap bits)
  | [], _, _ => rfl
  | (p, values) :: rest, bits, h => by
      have hfirst : c.encodeInput p.name values = .ok (bits 0) := h 0 (Nat.succ_pos _)
      have hrest := Compiled.encodeAll_range rest (fun i => bits (i + 1)) fun i hi =>
        h (i + 1) (Nat.succ_lt_succ hi)
      rw [Compiled.encodeAll, hfirst, ok_bind, hrest, ok_bind, List.length_cons,
        List.range_succ_eq_map, List.flatMap_cons, List.flatMap_map]

namespace Setup.Compiles

variable {s : Setup} {n : Netlist} {ins outs : List Slot} {p : Placement} {w : Walk} {c : Compiled}

/-- The values of a party are encoded to as many bits as its slots are wide. -/
theorem length_encodeInput (h : s.Compiles n ins outs p w c) {q : Party} (hq : q ∈ s.parties)
    {values : Values} {bits : List Bool} (hbits : c.encodeInput q.name values = .ok bits) :
    bits.length = slotBits (Slot.select ins q.inputs) := by
  rw [h.encodeInput_eq hq] at hbits
  obtain ⟨hints, hdigits⟩ := encodeSlots_eq_ok (encodeValues_eq_ok hbits)
  have heq := hdigits (fun name => ((values.find? name).bind Json.int?).getD 0) fun t ht => by
    obtain ⟨v, hv⟩ := hints t ht
    rw [hv, Option.getD_some]
  rw [heq, List.length_flatMap, slotBits]
  exact congrArg List.sum (List.map_congr_left fun t _ => Bits.length_ofInt _ _)

/-- Parties whose values are accepted compute something, and the evaluation of the setup on
their values gives it. -/
theorem computation (h : s.Compiles n ins outs p w c)
    (hfit : ∀ t ∈ ins, t.wire + t.width ≤ maxIndex)
    {inputs : Fin c.parties.length → Values}
    (haccept : ∀ i, ∃ bits, c.encodeInput (c.parties.get i).name (inputs i) = .ok bits) :
    ∃ k : Computation c,
      (∀ i, c.encodeInput (c.parties.get i).name (inputs i) = .ok (k.bits i)) ∧
      c.eval (List.ofFn inputs) = (c.decodeOutput k.outputs).mapError .encoding := by
  choose given hgiven using haccept
  let bits : Nat → List Bool := fun i => if hi : i < c.parties.length then given ⟨i, hi⟩ else []
  have hbits : ∀ i : Fin c.parties.length,
      c.encodeInput (c.parties.get i).name (inputs i) = .ok (bits i) := by
    intro i
    rw [hgiven]
    simp [bits]
  have hslots : c.lowered.partyBits =
      c.parties.map fun q => slotBits (Slot.select ins q.inputs) := by
    rw [h.parties, h.partyBits_eq]
    exact List.map_map
  have hwidths : c.lowered.partyBits =
      (List.range c.parties.length).map fun q => (bits q).length := by
    rw [hslots]
    refine List.ext_getElem (by simp) fun i hi _ => ?_
    have hlt : i < c.parties.length := by simpa using hi
    have hmem : c.parties[i] ∈ s.parties := h.parties ▸ List.getElem_mem hlt
    rw [List.getElem_map, List.getElem_map, List.getElem_range]
    exact (h.length_encodeInput hmem (hbits ⟨i, hlt⟩)).symm
  have hlen : ((List.range c.parties.length).flatMap bits).length = p.next := by
    rw [← h.inputBits_eq fun t ht _ => hfit t ht, LoweredCircuit.inputBits, hwidths,
      List.length_flatMap]
  have hblock := h.eval_lowered hfit hlen
  refine ⟨⟨bits, _, h.parties ▸ h.fits.nodup_names, hwidths, hblock⟩, hbits, ?_⟩
  have hcount : (c.parties.zip (List.ofFn inputs)).length = c.parties.length := by simp
  have hentries := Compiled.encodeAll_range (c.parties.zip (List.ofFn inputs)) bits fun i hi => by
    simpa using hbits ⟨i, by simpa using hi⟩
  rw [hcount] at hentries
  rw [Compiled.eval, if_neg fun hne => hne (List.length_ofFn)]
  simp only [hentries, Except.mapError, ok_bind, hblock]

end Setup.Compiles

end JointCircuit

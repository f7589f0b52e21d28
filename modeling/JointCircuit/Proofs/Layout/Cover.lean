import JointCircuit.Proofs.Compiled.Stages

/-!
# When the inputs can be placed

Slots can be placed when the circuit has all the wires they cover and no two of
them cover a wire together (`Placement.coverSlots_isOk_iff`).  A slot without a
wire is in nobody's way.

The parties list every input once, so the row in which the slots are placed is
the row of slots by rank in another order (`Setup.blockSlots_perm`), and whether
they can be placed does not depend on who provides which input.
-/

namespace JointCircuit

namespace Slot

/-- No wire is covered by both slots. -/
def Apart (s t : Slot) : Prop := ∀ wire, s.Covers wire → ¬ t.Covers wire

theorem Apart.symm {s t : Slot} (h : s.Apart t) : t.Apart s := by
  intro wire ht hs
  exact h wire hs ht

end Slot

namespace Placement

/-! ## One slot -/

/-- Free wires can be covered. -/
theorem cover_isOk {name : String} :
    ∀ {count wire : Nat} {p : Placement},
      (∀ w, wire ≤ w → w < wire + count → p.wires.get? w = none) →
      ∃ q, cover name count wire p = .ok q
  | 0, _, p, _ => ⟨p, rfl⟩
  | count + 1, wire, p, hfree => by
      rw [cover, hfree wire (Nat.le_refl _) (by omega)]
      apply cover_isOk
      intro w hle hlt
      rw [IndexMap.get?_set, if_neg (by omega)]
      exact hfree w (by omega) (by omega)

/-- A slot can be placed when its wires exist and are free. -/
theorem coverSlot_isOk {wireCount : Nat} {s : Slot} {p : Placement}
    (h : ∀ w, s.Covers w → w < wireCount ∧ p.wires.get? w = none) :
    ∃ q, coverSlot wireCount p s = .ok q := by
  have hinside : ¬ (s.wire < s.stop ∧ wireCount < s.stop) := by
    rintro ⟨hne, hbeyond⟩
    have hlast : s.Covers (s.stop - 1) := ⟨by omega, by omega⟩
    have := (h _ hlast).1
    omega
  have hfree : ∀ w, s.wire ≤ w → w < s.wire + (min s.stop wireCount - s.wire) →
      p.wires.get? w = none := by
    intro w hle hlt
    exact (h w ⟨hle, by omega⟩).2
  obtain ⟨q, hq⟩ := cover_isOk hfree
  exact ⟨q, bind_eq_ok.mpr ⟨q, hq, if_neg hinside⟩⟩

/-! ## A row of slots -/

/-- A row of slots can be placed when their wires exist and are free and no two slots
share one. -/
theorem coverSlots_isOk_iff {wireCount : Nat} {ss : List Slot} {p : Placement} :
    (∃ q, coverSlots wireCount p ss = .ok q) ↔
      ss.Pairwise Slot.Apart ∧
        ∀ s ∈ ss, ∀ w, s.Covers w → w < wireCount ∧ p.wires.get? w = none := by
  constructor
  · rintro ⟨q, hq⟩
    refine ⟨?_, (coverSlots_ok hq).2.1⟩
    induction ss generalizing p with
    | nil => exact List.Pairwise.nil
    | cons s ss ih =>
        obtain ⟨p', hslot, hslots⟩ := bind_eq_ok.mp hq
        obtain ⟨_, _, hget⟩ := coverSlot_ok hslot
        refine List.pairwise_cons.mpr ⟨?_, ih hslots⟩
        intro t ht w hs hcov
        -- the wire was taken by `s` when `t` came
        have hnone := ((coverSlots_ok hslots).2.1 t ht w hcov).2
        rw [hget w, if_pos hs] at hnone
        cases hnone
  · rintro ⟨hapart, hfree⟩
    induction ss generalizing p with
    | nil => exact ⟨p, rfl⟩
    | cons s ss ih =>
        obtain ⟨hhead, htail⟩ := List.pairwise_cons.mp hapart
        rw [List.forall_mem_cons] at hfree
        obtain ⟨p', hslot⟩ := coverSlot_isOk hfree.1
        obtain ⟨_, _, hget⟩ := coverSlot_ok hslot
        have hrest : ∀ t ∈ ss, ∀ w, t.Covers w → w < wireCount ∧ p'.wires.get? w = none := by
          intro t ht w hcov
          rw [hget w, if_neg fun hs => hhead t ht w hs hcov]
          exact hfree.2 t ht w hcov
        obtain ⟨q, hq⟩ := ih htail hrest
        exact ⟨q, bind_eq_ok.mpr ⟨p', hslot, hq⟩⟩

end Placement

/-! ## The slots of the input block -/

namespace Setup

/-- The inputs of a setup can be placed when the circuit has their wires and no two of
them share one. -/
theorem placement_isOk_iff {s : Setup} {ins : List Slot} {widths : List Nat} {wireCount : Nat}
    (hfits : s.Fits) (hins : Slot.Ranked s.circuit.inputs widths ins) :
    (∃ p, Placement.coverSlots wireCount .empty (s.blockSlots ins) = .ok p) ↔
      ins.Pairwise Slot.Apart ∧ ∀ t ∈ ins, ∀ w, t.Covers w → w < wireCount := by
  have hperm := blockSlots_perm hfits hins
  rw [Placement.coverSlots_isOk_iff, hperm.pairwise_iff Slot.Apart.symm]
  refine and_congr_right fun _ => ?_
  simp only [Placement.empty, IndexMap.get?_empty, and_true, hperm.mem_iff]

end Setup

end JointCircuit

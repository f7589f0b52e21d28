import JointCircuit.Lowering.Layout
import JointCircuit.Proofs.Sequence
import Mathlib.Algebra.GroupWithZero.Nat

/-!
# Where the inputs are placed

The inputs of all parties take the lowest wires of the lowered circuit, slot by
slot.  `Slot.place?` says where a wire goes when a row of slots is laid out: to
the number of wires that the slots before its own have, and on by its distance
from the first wire of its own.

`Placement.coverSlots_ok` says that a placement that succeeds is this layout, and
that no wire is covered twice.
-/

namespace JointCircuit

namespace Slot

/-! ## The wires of a slot -/

/-- The wires a slot covers. -/
def Covers (s : Slot) (wire : Nat) : Prop := s.wire ≤ wire ∧ wire < s.stop

instance (s : Slot) (wire : Nat) : Decidable (s.Covers wire) :=
  inferInstanceAs (Decidable (s.wire ≤ wire ∧ wire < s.stop))

theorem stop_eq {s : Slot} (h : s.wire + s.width ≤ maxIndex) : s.stop = s.wire + s.width := by
  simp only [stop, rangeEnd]
  omega

theorem extent_eq {s : Slot} (h : s.wire + s.width ≤ maxIndex) : s.extent = s.width := by
  rw [extent, stop_eq h]
  omega

/-- The wires of a slot end before the last index, or it has none. -/
def Ends (s : Slot) : Prop := 0 < s.width → s.wire + s.width ≤ maxIndex

theorem Ends.extent_eq {s : Slot} (h : s.Ends) : s.extent = s.width := by
  rcases Nat.eq_zero_or_pos s.width with hzero | hpos
  · rw [extent, stop, rangeEnd, hzero]
    omega
  · exact Slot.extent_eq (h hpos)

theorem covers_iff {s : Slot} (h : s.wire + s.width ≤ maxIndex) {wire : Nat} :
    s.Covers wire ↔ s.wire ≤ wire ∧ wire < s.wire + s.width := by
  rw [Covers, stop_eq h]

/-- The place of a wire when slots are laid out from `base` on. -/
def place? : List Slot → Nat → Nat → Option Nat
  | [], _, _ => none
  | s :: ss, base, wire =>
      if s.Covers wire then some (base + (wire - s.wire))
      else place? ss (base + s.extent) wire

theorem place?_eq_none {wire : Nat} :
    ∀ {ss : List Slot} {base : Nat}, place? ss base wire = none ↔ ∀ s ∈ ss, ¬ s.Covers wire
  | [], _ => by simp [place?]
  | s :: ss, base => by
      have ih := @place?_eq_none wire ss (base + s.extent)
      by_cases h : s.Covers wire
      · simp [place?, h]
      · simp [place?, h, ih]

/-- A place lies behind the wires before and within those of all slots. -/
theorem place?_lt {wire k : Nat} :
    ∀ {ss : List Slot} {base : Nat}, place? ss base wire = some k →
      k < base + (ss.map extent).sum
  | [], _, h => by simp [place?] at h
  | s :: ss, base, h => by
      by_cases hs : s.Covers wire
      · rw [place?, if_pos hs, Option.some.injEq] at h
        obtain ⟨hle, hlt⟩ := hs
        simp only [List.map_cons, List.sum_cons, extent]
        omega
      · rw [place?, if_neg hs] at h
        have ih := place?_lt h
        simp only [List.map_cons, List.sum_cons]
        omega

/-- A place lies behind the wires before all slots. -/
theorem le_of_place? {wire k : Nat} :
    ∀ {ss : List Slot} {base : Nat}, place? ss base wire = some k → base ≤ k
  | [], _, h => by simp [place?] at h
  | s :: ss, base, h => by
      by_cases hs : s.Covers wire
      · rw [place?, if_pos hs, Option.some.injEq] at h
        omega
      · rw [place?, if_neg hs] at h
        have ih := le_of_place? h
        omega

/-- Different wires have different places. -/
theorem place?_inj {a b k : Nat} :
    ∀ {ss : List Slot} {base : Nat}, place? ss base a = some k → place? ss base b = some k → a = b
  | [], _, h, _ => by simp [place?] at h
  | s :: ss, base, ha, hb => by
      have hbehind : ∀ wire, place? ss (base + s.extent) wire = some k → base + s.extent ≤ k :=
        fun _ => le_of_place?
      rw [place?] at ha hb
      split at ha <;> split at hb
      · rename_i hca hcb
        obtain ⟨hlea, _⟩ := hca
        obtain ⟨hleb, _⟩ := hcb
        rw [Option.some.injEq] at ha hb
        omega
      · rename_i hca _
        obtain ⟨hle, hlt⟩ := hca
        have hk := hbehind b hb
        rw [Option.some.injEq] at ha
        rw [extent] at hk
        omega
      · rename_i _ hcb
        obtain ⟨hle, hlt⟩ := hcb
        have hk := hbehind a ha
        rw [Option.some.injEq] at hb
        rw [extent] at hk
        omega
      · exact place?_inj ha hb

/-- What lies at the place of a wire, when every slot has a row of its extent. -/
theorem getElem?_place {α : Type} {f : Slot → List α} {wire k : Nat} :
    ∀ {ss : List Slot} {base : Nat}, (∀ s ∈ ss, (f s).length = s.extent) →
      place? ss base wire = some k →
      ∃ s ∈ ss, s.Covers wire ∧ (ss.flatMap f)[k - base]? = (f s)[wire - s.wire]?
  | [], _, _, h => by simp [place?] at h
  | s :: ss, base, hf, h => by
      have hlen : (f s).length = s.extent := hf s (List.mem_cons_self ..)
      by_cases hs : s.Covers wire
      · rw [place?, if_pos hs, Option.some.injEq] at h
        subst h
        refine ⟨s, List.mem_cons_self .., hs, ?_⟩
        obtain ⟨hle, hlt⟩ := hs
        have hwithin : wire - s.wire < (f s).length := by
          rw [hlen, extent]
          omega
        rw [List.flatMap_cons, Nat.add_sub_cancel_left, List.getElem?_append_left hwithin]
      · rw [place?, if_neg hs] at h
        obtain ⟨t, ht, hcov, hget⟩ :=
          getElem?_place (fun t ht => hf t (List.mem_cons_of_mem _ ht)) h
        have hbase : base + s.extent ≤ k := le_of_place? h
        refine ⟨t, List.mem_cons_of_mem _ ht, hcov, ?_⟩
        rw [List.flatMap_cons, List.getElem?_append_right (by omega), ← hget, hlen, Nat.sub_sub]

end Slot

/-! ## Covering -/

namespace Placement

open Slot (place?)

/-- Covering `count` wires gives them the next places, and each of them was free. -/
theorem cover_ok {name : String} :
    ∀ {count wire : Nat} {p q : Placement}, cover name count wire p = .ok q →
      q.next = p.next + count ∧
      (∀ w, wire ≤ w → w < wire + count → p.wires.get? w = none) ∧
      ∀ w, q.wires.get? w =
        if wire ≤ w ∧ w < wire + count then some (.placed (p.next + (w - wire)))
        else p.wires.get? w
  | 0, wire, p, q, h => by
      cases h
      refine ⟨rfl, fun w _ _ => by omega, fun w => ?_⟩
      rw [if_neg (by omega)]
  | count + 1, wire, p, q, h => by
      unfold cover at h
      split at h
      · cases h
      · rename_i hfree
        obtain ⟨hnext, hnone, hget⟩ := cover_ok h
        refine ⟨by rw [hnext]; simp only; omega, fun w hle hlt => ?_, fun w => ?_⟩
        · by_cases hw : w = wire
          · exact hw ▸ hfree
          · have := hnone w (by omega) (by omega)
            rwa [IndexMap.get?_set, if_neg hw] at this
        · rw [hget w, IndexMap.get?_set]
          by_cases hw : w = wire
          · subst hw
            rw [if_neg (by omega), if_pos rfl, if_pos (by omega), Nat.sub_self, Nat.add_zero]
          · by_cases hin : wire + 1 ≤ w ∧ w < wire + 1 + count
            · rw [if_pos hin, if_pos (by omega)]
              simp only [Option.some.injEq, WireRef.placed.injEq]
              omega
            · rw [if_neg hin, if_neg hw, if_neg (by omega)]

/-- Covering a slot gives all its wires the next places, and each of them was free. -/
theorem coverSlot_ok {wireCount : Nat} {s : Slot} {p q : Placement}
    (h : coverSlot wireCount p s = .ok q) :
    q.next = p.next + s.extent ∧
    (∀ w, s.Covers w → w < wireCount ∧ p.wires.get? w = none) ∧
    ∀ w, q.wires.get? w =
      if s.Covers w then some (.placed (p.next + (w - s.wire))) else p.wires.get? w := by
  obtain ⟨q', hcover, hrest⟩ := bind_eq_ok.mp h
  split at hrest
  · cases hrest
  · rename_i hin
    cases hrest
    have hcount : min s.stop wireCount - s.wire = s.extent := by
      rw [Slot.extent]
      omega
    rw [hcount] at hcover
    obtain ⟨hnext, hfree, hget⟩ := cover_ok hcover
    have hcovers : ∀ w, s.Covers w ↔ s.wire ≤ w ∧ w < s.wire + s.extent := by
      intro w
      rw [Slot.Covers, Slot.extent]
      omega
    refine ⟨hnext, fun w hw => ⟨?_, ?_⟩, fun w => ?_⟩
    · obtain ⟨hle, hlt⟩ := hw
      omega
    · exact hfree w ((hcovers w).mp hw).1 ((hcovers w).mp hw).2
    · rw [hget w]
      simp only [hcovers]

/-- Covering a row of slots lays them out, on wires that exist and were free. -/
theorem coverSlots_ok {wireCount : Nat} :
    ∀ {ss : List Slot} {p q : Placement}, coverSlots wireCount p ss = .ok q →
      q.next = p.next + (ss.map Slot.extent).sum ∧
      (∀ s ∈ ss, ∀ w, s.Covers w → w < wireCount ∧ p.wires.get? w = none) ∧
      ∀ w, q.wires.get? w = ((place? ss p.next w).map .placed).or (p.wires.get? w)
  | [], p, q, h => by
      cases h
      refine ⟨rfl, fun s hs => absurd hs List.not_mem_nil, fun w => ?_⟩
      simp [place?]
  | s :: ss, p, q, h => by
      obtain ⟨p', hslot, hslots⟩ := bind_eq_ok.mp h
      obtain ⟨hnext, hfree, hget⟩ := coverSlot_ok hslot
      obtain ⟨hnext', hfree', hget'⟩ := coverSlots_ok hslots
      refine ⟨?_, fun t ht w hw => ?_, fun w => ?_⟩
      · rw [hnext', hnext, List.map_cons, List.sum_cons, Nat.add_assoc]
      · rcases List.mem_cons.mp ht with rfl | ht
        · exact hfree w hw
        · obtain ⟨hlt, hnone⟩ := hfree' t ht w hw
          refine ⟨hlt, ?_⟩
          rw [hget w] at hnone
          split at hnone
          · cases hnone
          · exact hnone
      · rw [hget' w, hget w, place?, hnext]
        by_cases hs : s.Covers w
        · -- the slots behind `s` do not cover a wire of `s` again
          have hlater : place? ss (p.next + s.extent) w = none := by
            refine Slot.place?_eq_none.mpr fun t ht hw => ?_
            have hnone := (hfree' t ht w hw).2
            rw [hget w, if_pos hs] at hnone
            cases hnone
          rw [if_pos hs, if_pos hs, hlater]
          rfl
        · rw [if_neg hs, if_neg hs]

end Placement

end JointCircuit

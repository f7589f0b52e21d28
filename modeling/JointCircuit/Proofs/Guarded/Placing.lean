import JointCircuit.Proofs.Compiled.Stages
import JointCircuit.Proofs.Guarded.Basic
import JointCircuit.Proofs.Layout.Cover
import JointCircuit.Proofs.NameTable
import Mathlib.Data.List.Perm.Subperm

/-!
# Laying values over wires, guarded

The inputs of a party are named.  Their first wires are looked up in the table of the
circuit, they are put in the order of these wires, and their widths are looked up in a
table that was made by rank.  Every wire covered raises the number of the next lowered
wire, and every input raises the number of bits of its party.

The names were checked before, so the tables have them, and the numbers stay below the
number of all input bits.  `Guarded.layOut_eq` puts this together.
-/

namespace JointCircuit

/-! ## Widths by name -/

/-- The widths of slots by their names. -/
def Slot.widthTable (slots : List Slot) : NameTable Nat :=
  .ofList (slots.map fun t => (t.name, t.width))

theorem Slot.find?_widthTable {slots : List Slot} (hnodup : (slots.map name).Nodup) {t : Slot}
    (ht : t ∈ slots) : (widthTable slots).find? t.name = some t.width := by
  refine NameTable.find?_ofList ?_ (List.mem_map_of_mem (f := fun t : Slot => (t.name, t.width)) ht)
  rwa [List.map_map]

/-! ## Placing -/

theorem Slot.extent_le (t : Slot) : t.extent ≤ t.width := by
  rw [extent, stop, rangeEnd]
  omega

theorem Slot.extents_le : ∀ ts : List Slot, (ts.map extent).sum ≤ slotBits ts
  | [] => Nat.le_refl _
  | t :: ts => Nat.add_le_add t.extent_le (extents_le ts)

namespace Placement

theorem coverSlots_append (wireCount : Nat) (us : List Slot) :
    ∀ (ts : List Slot) (p : Placement), coverSlots wireCount p (ts ++ us) =
      coverSlots wireCount p ts >>= fun q => coverSlots wireCount q us
  | [], _ => rfl
  | t :: ts, p => by
      rw [List.cons_append, coverSlots, coverSlots, bind_assoc]
      exact bind_congr fun q => coverSlots_append wireCount us ts q

theorem coverSlots_next_le {wireCount : Nat} {ts : List Slot} {p q : Placement}
    (h : coverSlots wireCount p ts = .ok q) : q.next ≤ p.next + slotBits ts := by
  rw [(coverSlots_ok h).1]
  exact Nat.add_le_add_left (Slot.extents_le ts) _

/-- The wires covered are different wires of the circuit. -/
theorem next_le_wireCount {wireCount : Nat} {ts : List Slot} {p : Placement}
    (h : coverSlots wireCount .empty ts = .ok p) : p.next ≤ wireCount := by
  obtain ⟨hapart, hinside⟩ := coverSlots_isOk_iff.mp ⟨p, h⟩
  -- in a row the wires of all slots repeat nothing and are among those of the circuit
  have hcovers : ∀ t ∈ ts, ∀ wire, wire ∈ List.range' t.wire t.extent ↔ t.Covers wire := by
    intro t _ wire
    rw [List.mem_range'_1, Slot.extent, Slot.Covers]
    omega
  have hnodup : (ts.flatMap fun t => List.range' t.wire t.extent).Nodup := by
    rw [List.nodup_flatMap]
    refine ⟨fun t _ => List.nodup_range', hapart.imp_of_mem ?_⟩
    intro t u ht hu hapart wire hwire hwire'
    exact hapart wire ((hcovers t ht wire).mp hwire) ((hcovers u hu wire).mp hwire')
  have hsub : (ts.flatMap fun t => List.range' t.wire t.extent) ⊆ List.range wireCount := by
    intro wire hwire
    obtain ⟨t, ht, hwire⟩ := List.mem_flatMap.mp hwire
    exact List.mem_range.mpr (hinside t ht wire ((hcovers t ht wire).mp hwire)).1
  have hlength := (hnodup.subperm hsub).length_le
  rw [List.length_range, List.length_flatMap] at hlength
  rw [(coverSlots_ok h).1, Placement.empty, Nat.zero_add]
  simpa only [List.length_range'] using hlength

end Placement

namespace Guarded

/-- Cover wires, each raising the number of the next lowered wire. -/
def cover (name : String) : Nat → Nat → Placement → Guarded CircuitFault Placement
  | 0, _, p => .ok p
  | count + 1, wire, p =>
      match p.wires.get? wire with
      | some _ => .error (.refused (.inputOverlap name wire))
      | none => do
          let next ← add p.next 1
          cover name count (wire + 1) ⟨p.wires.set wire (.placed p.next), next⟩

/-- Cover the wires of a slot. -/
def coverSlot (wireCount : Nat) (p : Placement) (t : Slot) : Guarded CircuitFault Placement := do
  let p ← cover t.name (min t.stop wireCount - t.wire) t.wire p
  if t.wire < t.stop ∧ wireCount < t.stop then
    .error (.refused (.inputBeyondWires t.name wireCount))
  else .ok p

/-- Cover the wires of the inputs of a party, given with their first wires, and add up
their widths from `bits` on. -/
def coverEntries (widths : NameTable Nat) (wireCount : Nat) :
    Placement → Nat → List (String × Nat) → Guarded CircuitFault (Placement × List Slot × Nat)
  | p, bits, [] => .ok (p, [], bits)
  | p, bits, (name, wire) :: es => do
      let width ← lookUp widths name
      let p ← coverSlot wireCount p ⟨name, wire, width⟩
      let bits ← add bits width
      let (p, slots, bits) ← coverEntries widths wireCount p bits es
      .ok (p, ⟨name, wire, width⟩ :: slots, bits)

theorem cover_eq (name : String) :
    ∀ {count wire : Nat} {p : Placement}, p.next + count ≤ maxIndex →
      cover name count wire p = refuse (Placement.cover name count wire p)
  | 0, _, _, _ => rfl
  | count + 1, wire, p, h => by
      rw [cover, Placement.cover]
      cases p.wires.get? wire with
      | some r => rfl
      | none =>
          simp only [add_eq (show p.next + 1 ≤ maxIndex by omega), ok_bind]
          exact cover_eq name (by simp only; omega)

theorem coverSlot_eq {wireCount : Nat} {p : Placement} {t : Slot}
    (h : p.next + t.width ≤ maxIndex) :
    coverSlot wireCount p t = refuse (Placement.coverSlot wireCount p t) := by
  have hcount : p.next + (min t.stop wireCount - t.wire) ≤ maxIndex := by
    have hextent := t.extent_le
    rw [Slot.extent] at hextent
    omega
  refine bind_eq_refuse (cover_eq t.name hcount) fun q _ => ?_
  split <;> rfl

/-- The inputs of a party are covered as its slots, as long as all numbers stay words. -/
theorem coverEntries_eq {widths : NameTable Nat} {wireCount : Nat} :
    ∀ {ts : List Slot} {p : Placement} {bits : Nat},
      (∀ t ∈ ts, widths.find? t.name = some t.width) → bits + slotBits ts ≤ maxIndex →
      p.next + slotBits ts ≤ maxIndex →
      coverEntries widths wireCount p bits (ts.map Slot.entry) =
        refuse (Placement.coverSlots wireCount p ts >>= fun q => .ok (q, ts, bits + slotBits ts))
  | [], _, _, _, _, _ => rfl
  | t :: ts, p, bits, hwidths, hbits, hnext => by
      have hsum : slotBits (t :: ts) = t.width + slotBits ts := rfl
      rw [List.forall_mem_cons] at hwidths
      rw [hsum] at hbits hnext ⊢
      rw [List.map_cons, Slot.entry, coverEntries, lookUp_eq hwidths.1, ok_bind,
        Placement.coverSlots, bind_assoc]
      have hroom : p.next + t.width ≤ maxIndex := by omega
      refine bind_eq_refuse (coverSlot_eq hroom) fun q hq => ?_
      have hq_next := (Placement.coverSlot_ok hq).1
      have hextent := t.extent_le
      rw [add_eq (by omega), ok_bind, coverEntries_eq hwidths.2 (by omega) (by omega)]
      cases Placement.coverSlots wireCount q ts with
      | error fault => rfl
      | ok q' => simp only [ok_bind, refuse_ok, Nat.add_assoc]

/-! ## The inputs of a party -/

/-- The first wires of the inputs of a party. -/
def firstWires (table : NameTable Nat) (names : List String) :
    Guarded CircuitFault (List (String × Nat)) :=
  names.mapM fun name => do .ok (name, ← lookUp table name)

/-- An entry comes before another by its wire, on one wire by its name, or is the other. -/
def entryLe (a b : String × Nat) : Bool := decide (a.2 < b.2 ∨ a.2 = b.2 ∧ a.1 ≤ b.1)

/-- Entries in the order of their wires, those of one wire in the order of their names. -/
def sortEntries (es : List (String × Nat)) : List (String × Nat) := es.mergeSort entryLe

theorem entryLe_trans (a b c : String × Nat) (hab : entryLe a b = true) (hbc : entryLe b c = true) :
    entryLe a c = true := by
  rw [entryLe, decide_eq_true_eq] at hab hbc ⊢
  rcases hab with hab | ⟨hab, hle⟩ <;> rcases hbc with hbc | ⟨hbc, hle'⟩
  · exact .inl (by omega)
  · exact .inl (by omega)
  · exact .inl (by omega)
  · exact .inr ⟨by omega, String.le_trans hle hle'⟩

theorem entryLe_total (a b : String × Nat) : (entryLe a b || entryLe b a) = true := by
  rw [Bool.or_eq_true, entryLe, entryLe, decide_eq_true_eq, decide_eq_true_eq]
  rcases Nat.lt_trichotomy a.2 b.2 with hlt | heq | hgt
  · exact .inl (.inl hlt)
  · rcases String.le_total a.1 b.1 with hle | hle
    · exact .inl (.inr ⟨heq, hle⟩)
    · exact .inr (.inr ⟨heq.symm, hle⟩)
  · exact .inr (.inl hgt)

theorem entryLe_antisymm {a b : String × Nat} (hab : entryLe a b = true)
    (hba : entryLe b a = true) : a = b := by
  rw [entryLe, decide_eq_true_eq] at hab hba
  rcases hab with hab | ⟨heq, hle⟩ <;> rcases hba with hba | ⟨_, hle'⟩
  · omega
  · omega
  · omega
  · exact Prod.ext (String.le_antisymm hle hle') heq

theorem entryLe_of_before {a b : String × Nat} (h : Slot.Before a b) : entryLe a b = true := by
  rw [entryLe, decide_eq_true_eq]
  exact h.imp id fun ⟨heq, hlt⟩ => ⟨heq, String.not_lt.mp (String.lt_asymm hlt)⟩

/-- Sorting gives the one row in this order that has the same entries. -/
theorem sortEntries_eq {es fs : List (String × Nat)} (hperm : es.Perm fs)
    (hsorted : fs.Pairwise Slot.Before) : sortEntries es = fs :=
  ((List.mergeSort_perm es entryLe).trans hperm).eq_of_pairwise
    (fun _ _ _ _ hab hba => entryLe_antisymm hab hba)
    (List.pairwise_mergeSort entryLe_trans entryLe_total es) (hsorted.imp entryLe_of_before)

section

variable {table : NameTable Nat} {widths : List Nat} {ins : List Slot} {names : List String}

theorem map_entry_select (ins : List Slot) (names : List String) :
    (Slot.select ins names).map Slot.entry =
      (ins.map Slot.entry).filter fun e => names.contains e.1 := by
  rw [List.filter_map]
  rfl

theorem mem_map_entry_select (hins : Slot.Ranked table widths ins) {e : String × Nat} :
    e ∈ (Slot.select ins names).map Slot.entry ↔ table.find? e.1 = some e.2 ∧ e.1 ∈ names := by
  rw [map_entry_select, List.mem_filter, List.contains_iff_mem, hins.entries.mem_iff,
    NameTable.find?_eq_some_iff]

/-- The names a party lists, with their first wires, are the entries of its slots. -/
theorem map_find?_perm (hins : Slot.Ranked table widths ins) (hnodup : names.Nodup)
    {wire : String → Nat} (hfind : ∀ name ∈ names, table.find? name = some (wire name)) :
    (names.map fun name => (name, wire name)).Perm ((Slot.select ins names).map Slot.entry) := by
  have hslots := hins.nodup_names
  refine (List.perm_ext_iff_of_nodup ?_ ?_).mpr fun e => ?_
  · refine List.Nodup.of_map Prod.fst ?_
    rwa [List.map_map, Function.comp_def, List.map_id']
  · rw [map_entry_select]
    refine (List.Nodup.of_map Prod.fst ?_).filter _
    rwa [List.map_map]
  · rw [mem_map_entry_select hins, List.mem_map]
    constructor
    · rintro ⟨name, hname, rfl⟩
      exact ⟨hfind name hname, hname⟩
    · rintro ⟨hwire, hname⟩
      have heq : wire e.1 = e.2 := Option.some.inj ((hfind e.1 hname).symm.trans hwire)
      exact ⟨e.1, hname, by rw [heq]⟩

/-- The inputs a party lists are found, and sorted they are its slots. -/
theorem firstWires_eq (hins : Slot.Ranked table widths ins) (hnodup : names.Nodup)
    (hlisted : ∀ name ∈ names, name ∈ table.keys) :
    ∃ es, firstWires table names = .ok es ∧
      sortEntries es = (Slot.select ins names).map Slot.entry := by
  have hfind : ∀ name ∈ names, table.find? name = some ((table.find? name).getD 0) := by
    intro name hname
    obtain ⟨wire, hwire⟩ := NameTable.mem_keys_iff.mp (hlisted name hname)
    rw [hwire, Option.getD_some]
  have hsorted : ((Slot.select ins names).map Slot.entry).Pairwise Slot.Before := by
    rw [map_entry_select]
    exact hins.sorted.filter _
  refine ⟨_, mapM_eq fun name hname => ?_,
    sortEntries_eq (map_find?_perm hins hnodup hfind) hsorted⟩
  rw [lookUp_eq (hfind name hname)]
  rfl

end

/-! ## All parties -/

/-- Place the inputs of the parties, each with the number of its bits. -/
def placeParties (table widths : NameTable Nat) (wireCount : Nat) :
    Placement → List Party → Guarded CircuitFault (Placement × List (List Slot) × List Nat)
  | p, [] => .ok (p, [], [])
  | p, q :: qs => do
      let es ← firstWires table q.inputs
      let (p, slots, bits) ← coverEntries widths wireCount p 0 (sortEntries es)
      let (p, rows, counts) ← placeParties table widths wireCount p qs
      .ok (p, slots :: rows, bits :: counts)

theorem placeParties_eq {table : NameTable Nat} {header : List Nat} {ins : List Slot}
    {wireCount : Nat} (hins : Slot.Ranked table header ins) :
    ∀ {qs : List Party} {p : Placement}, (listedInputs qs).Nodup →
      (∀ name ∈ listedInputs qs, name ∈ table.keys) →
      p.next + slotBits (qs.map fun q => Slot.select ins q.inputs).flatten ≤ maxIndex →
      placeParties table (Slot.widthTable ins) wireCount p qs =
        refuse (Placement.coverSlots wireCount p
            (qs.map fun q => Slot.select ins q.inputs).flatten >>= fun p' =>
          .ok (p', qs.map fun q => Slot.select ins q.inputs,
            (qs.map fun q => Slot.select ins q.inputs).map slotBits))
  | [], _, _, _, _ => rfl
  | q :: qs, p, hnodup, hlisted, hnext => by
      have hsplit : listedInputs (q :: qs) = q.inputs ++ listedInputs qs := List.flatMap_cons
      rw [hsplit, List.nodup_append] at hnodup
      rw [hsplit, List.forall_mem_append] at hlisted
      rw [List.map_cons, List.flatten_cons, slotBits_append] at hnext
      obtain ⟨es, hes, hsort⟩ := firstWires_eq hins hnodup.1 hlisted.1
      have hwidths : ∀ t ∈ Slot.select ins q.inputs,
          (Slot.widthTable ins).find? t.name = some t.width := fun t ht =>
        Slot.find?_widthTable hins.nodup_names (List.mem_of_mem_filter ht)
      rw [placeParties, hes, ok_bind, hsort, List.map_cons, List.flatten_cons,
        Placement.coverSlots_append, bind_assoc,
        coverEntries_eq hwidths (by omega) (by omega)]
      cases hcover : Placement.coverSlots wireCount p (Slot.select ins q.inputs) with
      | error fault => rfl
      | ok p' =>
          -- the party took no more wires than it has bits, so the others still have room
          have hle := Placement.coverSlots_next_le hcover
          simp only [ok_bind, refuse_ok]
          rw [placeParties_eq hins hnodup.2.1 hlisted.2 (by omega)]
          cases Placement.coverSlots wireCount p'
            (qs.map fun q => Slot.select ins q.inputs).flatten with
          | error fault => rfl
          | ok p'' => simp only [ok_bind, refuse_ok, List.map_cons, Nat.zero_add]

/-! ## The layout -/

/-- The widths of the values of a table, matched by rank. -/
def widthsByRank (side : Side) (table : NameTable Nat) (widths : List Nat) :
    Except CircuitFault (NameTable Nat) :=
  if table.size = widths.length then
    .ok (.ofList (((Slot.rank table).map Prod.fst).zip widths))
  else .error (.nameCount side widths.length table.size)

/-- What is known before the gates are walked. -/
structure Layout where
  placement : Placement
  inputs : List (List Slot)
  /-- The number of input bits of each party. -/
  partyBits : List Nat
  outputWidths : NameTable Nat

/-- Lay the values of a setup over the wires of its circuit. -/
def layOut (s : Setup) (n : Netlist) : Guarded FormatError Layout := do
  let inputWidths ← refuse (Netlist.atLine n.header.inputs
    (widthsByRank .input s.circuit.inputs n.inputWidths))
  let outputWidths ← refuse (Netlist.atLine n.header.outputs
    (widthsByRank .output s.circuit.outputs n.outputWidths))
  let (placement, inputs, partyBits) ← atLine n.header.inputs
    (placeParties s.circuit.inputs inputWidths n.wireCount .empty s.parties)
  .ok { placement, inputs, partyBits, outputWidths }

/-- A layout with its numbers of bits, and the outputs as a table of widths. -/
def Layout.of (l : JointCircuit.Layout) : Layout :=
  { placement := l.placement
    inputs := l.inputs
    partyBits := l.inputs.map slotBits
    outputWidths := Slot.widthTable l.outputs }

theorem zip_eq_map_zipWith :
    ∀ (es : List (String × Nat)) (ws : List Nat), (es.map Prod.fst).zip ws =
      (List.zipWith (fun e width => (⟨e.1, e.2, width⟩ : Slot)) es ws).map
        fun t => (t.name, t.width)
  | [], _ => rfl
  | _ :: _, [] => rfl
  | e :: es, w :: ws => by
      rw [List.map_cons, List.zip_cons_cons, List.zipWith_cons_cons, List.map_cons,
        zip_eq_map_zipWith es ws]

theorem widthsByRank_eq (side : Side) (table : NameTable Nat) (widths : List Nat) :
    widthsByRank side table widths = (Slot.ofTable side table widths).map Slot.widthTable := by
  unfold widthsByRank Slot.ofTable
  split
  · rw [zip_eq_map_zipWith]
    rfl
  · rfl

/-- Laying out the values of a setup that fits looks up only names that are there. -/
theorem layOut_eq {s : Setup} {n : Netlist} (hfits : s.Fits) (hbits : n.inputBits ≤ maxIndex) :
    layOut s n = refuse (s.layOut n >>= fun l => .ok (Layout.of l)) := by
  unfold layOut Setup.layOut
  rw [widthsByRank_eq, widthsByRank_eq]
  cases hins : Slot.ofTable .input s.circuit.inputs n.inputWidths with
  | error fault => rfl
  | ok ins =>
      cases Slot.ofTable .output s.circuit.outputs n.outputWidths with
      | error fault => rfl
      | ok outs =>
          rw [Slot.ofTable_eq_ok_iff] at hins
          have hnext : Placement.empty.next + slotBits (s.blockSlots ins) ≤ maxIndex := by
            rwa [Placement.empty, Nat.zero_add, Setup.slotBits_blockSlots hfits hins]
          have hplace : placeParties s.circuit.inputs (Slot.widthTable ins) n.wireCount .empty
              s.parties = refuse (Placement.coverSlots n.wireCount .empty (s.blockSlots ins) >>=
                fun p => .ok (p, s.partySlots ins, (s.partySlots ins).map slotBits)) :=
            placeParties_eq hins hfits.nodup_inputs (fun name => (hfits.mem_inputs name).mp) hnext
          simp only [Except.map, Netlist.atLine, refuse_ok, ok_bind, hplace]
          change _ = refuse ((Netlist.atLine n.header.inputs
            (Placement.coverSlots n.wireCount .empty (s.blockSlots ins)) >>= _) >>= _)
          cases Placement.coverSlots n.wireCount .empty (s.blockSlots ins) with
          | error fault => rfl
          | ok p => rfl

end Guarded

end JointCircuit

import JointCircuit.Lowering.Layout
import JointCircuit.Proofs.NameTable

/-!
# Slots by rank

`Slot.ofTable` matches the names of a table with the widths of a header by rank.
`Slot.Ranked` says what that means without an algorithm: the slots are the
entries of the table, they stand in the order of their wires and on one wire in
the order of their names, and their widths are those of the header.

`Slot.ofTable_eq_ok_iff` says that the two agree, so there is one row of slots
at most that is ranked for a table and its widths.
-/

namespace JointCircuit

namespace Slot

/-! ## Sorting by wire -/

/-- An entry comes before another by its wire, on one wire by its name. -/
def Before (a b : String × Nat) : Prop := a.2 < b.2 ∨ a.2 = b.2 ∧ a.1 < b.1

theorem insertByWire_perm (e : String × Nat) :
    ∀ fs : List (String × Nat), (insertByWire e fs).Perm (e :: fs)
  | [] => List.Perm.refl _
  | f :: fs => by
      unfold insertByWire
      split
      · exact List.Perm.refl _
      · exact ((insertByWire_perm e fs).cons f).trans (List.Perm.swap e f fs)

theorem sortByWire_perm : ∀ es : List (String × Nat), (sortByWire es).Perm es
  | [] => List.Perm.refl _
  | e :: es => (insertByWire_perm e _).trans ((sortByWire_perm es).cons e)

/-- An entry whose name comes first is put before all entries on its wire. -/
theorem insertByWire_pairwise {e : String × Nat} :
    ∀ {fs : List (String × Nat)}, (∀ f ∈ fs, e.1 < f.1) → fs.Pairwise Before →
      (insertByWire e fs).Pairwise Before
  | [], _, _ => List.pairwise_singleton _ _
  | f :: fs, hname, hfs => by
      obtain ⟨hhead, htail⟩ := List.pairwise_cons.mp hfs
      unfold insertByWire
      split
      · rename_i hle
        have hef : Before e f := by
          rcases Nat.lt_or_eq_of_le hle with hlt | heq
          · exact Or.inl hlt
          · exact Or.inr ⟨heq, hname f (List.mem_cons_self ..)⟩
        refine List.pairwise_cons.mpr ⟨fun g hg => ?_, hfs⟩
        rcases List.mem_cons.mp hg with rfl | hg
        · exact hef
        · rcases hhead g hg with hlt | ⟨heq, _⟩
          · exact Or.inl (Nat.lt_of_le_of_lt hle hlt)
          · rcases Nat.lt_or_eq_of_le (heq ▸ hle) with hlt | heq'
            · exact Or.inl hlt
            · exact Or.inr ⟨heq', hname g (List.mem_cons_of_mem _ hg)⟩
      · rename_i hnle
        have hlt : f.2 < e.2 := Nat.lt_of_not_le hnle
        refine List.pairwise_cons.mpr ⟨fun g hg => ?_, ?_⟩
        · rcases List.mem_cons.mp ((insertByWire_perm e fs).mem_iff.mp hg) with rfl | hg
          · exact Or.inl hlt
          · exact hhead g hg
        · exact insertByWire_pairwise (fun g hg => hname g (List.mem_cons_of_mem _ hg)) htail

theorem sortByWire_pairwise :
    ∀ {es : List (String × Nat)}, es.Pairwise (fun a b => a.1 < b.1) →
      (sortByWire es).Pairwise Before
  | [], _ => List.Pairwise.nil
  | e :: es, h => by
      obtain ⟨hhead, htail⟩ := List.pairwise_cons.mp h
      refine insertByWire_pairwise (fun f hf => ?_) (sortByWire_pairwise htail)
      exact hhead f ((sortByWire_perm es).mem_iff.mp hf)

theorem rank_perm (table : NameTable Nat) : (rank table).Perm table.entries :=
  sortByWire_perm _

theorem rank_pairwise (table : NameTable Nat) : (rank table).Pairwise Before :=
  sortByWire_pairwise table.sorted

theorem before_asymm {a b : String × Nat} (hab : Before a b) (hba : Before b a) : a = b := by
  rcases hab with hlt | ⟨heq, hlt⟩ <;> rcases hba with hlt' | ⟨heq', hlt'⟩
  · omega
  · omega
  · omega
  · exact absurd hlt' (String.lt_asymm hlt)

/-! ## Ranked slots -/

/-- The name and first wire of a slot. -/
def entry (s : Slot) : String × Nat := (s.name, s.wire)

/-- The slots are those of the table, by rank, with the widths in turn. -/
structure Ranked (table : NameTable Nat) (widths : List Nat) (slots : List Slot) : Prop where
  entries : (slots.map entry).Perm table.entries
  sorted : (slots.map entry).Pairwise Before
  widths : slots.map width = widths

theorem map_entry_zipWith :
    ∀ {es : List (String × Nat)} {ws : List Nat}, es.length = ws.length →
      (List.zipWith (fun e width => (⟨e.1, e.2, width⟩ : Slot)) es ws).map entry = es
  | [], [], _ => rfl
  | e :: es, _ :: ws, h => by
      rw [List.zipWith_cons_cons, List.map_cons, map_entry_zipWith (Nat.succ.inj h)]
      rfl

theorem map_width_zipWith :
    ∀ {es : List (String × Nat)} {ws : List Nat}, es.length = ws.length →
      (List.zipWith (fun e width => (⟨e.1, e.2, width⟩ : Slot)) es ws).map width = ws
  | [], [], _ => rfl
  | _ :: es, w :: ws, h => by
      rw [List.zipWith_cons_cons, List.map_cons, map_width_zipWith (Nat.succ.inj h)]

theorem zipWith_entry_width :
    ∀ slots : List Slot,
      List.zipWith (fun e width => (⟨e.1, e.2, width⟩ : Slot)) (slots.map entry)
        (slots.map width) = slots
  | [] => rfl
  | s :: slots => by
      rw [List.map_cons, List.map_cons, List.zipWith_cons_cons, zipWith_entry_width slots]
      rfl

theorem length_rank (table : NameTable Nat) : (rank table).length = table.size :=
  (rank_perm table).length_eq

/-- The names and first wires of ranked slots are those of the table by rank. -/
theorem Ranked.map_entry {table : NameTable Nat} {widths : List Nat} {slots : List Slot}
    (h : Ranked table widths slots) : slots.map entry = rank table :=
  (h.entries.trans (rank_perm table).symm).eq_of_pairwise
    (fun _ _ _ _ hab hba => before_asymm hab hba) h.sorted (rank_pairwise table)

/-- Laying a table out succeeds with the ranked slots and with no others. -/
theorem ofTable_eq_ok_iff {side : Side} {table : NameTable Nat} {widths : List Nat}
    {slots : List Slot} :
    ofTable side table widths = .ok slots ↔ Ranked table widths slots := by
  unfold ofTable
  constructor
  · intro h
    split at h
    · rename_i hsize
      have hlen : (rank table).length = widths.length := (length_rank table).trans hsize
      cases h
      refine ⟨?_, ?_, map_width_zipWith hlen⟩
      · rw [map_entry_zipWith hlen]
        exact rank_perm table
      · rw [map_entry_zipWith hlen]
        exact rank_pairwise table
    · cases h
  · intro h
    have hsize : table.size = widths.length := by
      rw [← length_rank, ← h.map_entry, ← h.widths, List.length_map, List.length_map]
    rw [if_pos hsize, ← h.map_entry, ← h.widths, zipWith_entry_width]

/-- At most one row of slots is ranked for a table and its widths. -/
theorem Ranked.unique {table : NameTable Nat} {widths : List Nat} {slots slots' : List Slot}
    (h : Ranked table widths slots) (h' : Ranked table widths slots') : slots = slots' := by
  have hok : ofTable .input table widths = .ok slots := ofTable_eq_ok_iff.mpr h
  exact Except.ok.inj (hok.symm.trans (ofTable_eq_ok_iff.mpr h'))

/-- The slots of a ranked row have distinct names. -/
theorem Ranked.nodup_names {table : NameTable Nat} {widths : List Nat} {slots : List Slot}
    (h : Ranked table widths slots) : (slots.map name).Nodup := by
  have hnames : slots.map name = (slots.map entry).map Prod.fst := by
    rw [List.map_map]
    rfl
  rw [hnames]
  exact ((h.entries.map Prod.fst).nodup_iff).mpr table.nodup_keys

theorem Ranked.mem_names {table : NameTable Nat} {widths : List Nat} {slots : List Slot}
    (h : Ranked table widths slots) {name : String} :
    name ∈ table.keys ↔ ∃ s ∈ slots, s.name = name := by
  rw [NameTable.keys, ← (h.entries.map Prod.fst).mem_iff, List.map_map]
  exact List.mem_map

end Slot

end JointCircuit

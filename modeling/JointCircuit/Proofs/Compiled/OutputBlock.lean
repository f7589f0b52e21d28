import JointCircuit.Proofs.Compiled.InputBlock
import JointCircuit.Proofs.Lowering.Order
import Mathlib.Data.Set.Card

/-!
# The output block

Every gate that writes a wire from the first named output on gets a ticket, and the map
of wires keeps the last ticket of each wire (`Walk.run_lastAt`).  So different wires have
different places in the output block, and each place belongs to the last of the gates
that write its wire.

A gate that writes such a wire again leaves the earlier ticket behind: its place belongs
to no wire, and as the header counts tickets it is one of the places the header
announces.  `Setup.outputBlock_iff` says that the wires written fill the output block
exactly when none of them is written twice.  With or without that, the bit at the place
of a wire is the final one.
-/

namespace JointCircuit

/-- The wires from `firstOutput` on that a row of gates writes, in the order of the text. -/
def outputWrites (firstOutput : Nat) (gs : List PlacedGate) : List Nat :=
  (gs.map fun g => g.gate.output).filter (firstOutput ≤ ·)

/-- An entry stands at an index of a row, and nowhere behind it. -/
structure LastAt (row : List Nat) (k wire : Nat) : Prop where
  get : row[k]? = some wire
  last : ∀ j, row[j]? = some wire → j ≤ k

section Rows

variable {row : List Nat} {k l wire firstOutput : Nat} {gs : List PlacedGate}

theorem mem_outputWrites : wire ∈ outputWrites firstOutput gs ↔
    firstOutput ≤ wire ∧ Writes gs wire := by
  simp [outputWrites, Writes, and_comm]

theorem outputWrites_cons (firstOutput : Nat) (g : PlacedGate) (gs : List PlacedGate) :
    outputWrites firstOutput (g :: gs) =
      if firstOutput ≤ g.gate.output then g.gate.output :: outputWrites firstOutput gs
      else outputWrites firstOutput gs := by
  simp [outputWrites, List.filter_cons]

theorem LastAt.cons (h : LastAt row k wire) (entry : Nat) :
    LastAt (entry :: row) (k + 1) wire where
  get := h.get
  last
    | 0, _ => Nat.zero_le _
    | j + 1, hj => Nat.succ_le_succ (h.last j hj)

theorem lastAt_head (h : wire ∉ row) : LastAt (wire :: row) 0 wire where
  get := rfl
  last
    | 0, _ => Nat.le_refl _
    | j + 1, hj =>
        have hlater : row[j]? = some wire := hj
        absurd (List.mem_of_getElem? hlater) h

theorem exists_lastAt : ∀ {row : List Nat}, wire ∈ row → ∃ k, LastAt row k wire
  | entry :: row, h => by
      by_cases hlater : wire ∈ row
      · obtain ⟨k, hk⟩ := exists_lastAt hlater
        exact ⟨k + 1, hk.cons entry⟩
      · obtain rfl := (List.mem_cons.mp h).resolve_right hlater
        exact ⟨0, lastAt_head hlater⟩

/-- Every index of a row is the last one of its entry when no entry stands twice. -/
theorem forall_lastAt_iff :
    (∀ k < row.length, ∃ wire, LastAt row k wire) ↔ row.Nodup := by
  constructor
  · intro h
    rw [List.nodup_iff_getElem?_ne_getElem?]
    intro i j hij hj heq
    obtain ⟨wire, hwire⟩ := h i (Nat.lt_trans hij hj)
    exact absurd (hwire.last j (heq ▸ hwire.get)) (Nat.not_le.mpr hij)
  · intro h k hk
    refine ⟨row[k], List.getElem?_eq_getElem hk, fun j hj => ?_⟩
    obtain ⟨hlt, hget⟩ := List.getElem?_eq_some_iff.mp hj
    exact Nat.le_of_eq ((h.getElem_inj_iff).mp hget)

/-- A row has as many different entries as places when no entry stands twice. -/
theorem ncard_mem_eq_length_iff : {x | x ∈ row}.ncard = row.length ↔ row.Nodup := by
  have hset : {x | x ∈ row} = (row.toFinset : Set Nat) := by
    ext x
    simp
  rw [hset, Set.ncard_coe_finset]
  have hcard : row.toFinset.card = row.length ↔ row.Nodup :=
    Multiset.toFinset_card_eq_card_iff_nodup
  exact hcard

end Rows

namespace Walk

variable {inputBits firstOutput : Nat} {w w' : Walk}

/-- A gate gets the next ticket when it writes a wire from the first named output on, and
otherwise none. -/
theorem step_ticket {g : Gate} (h : step inputBits firstOutput w g = .ok w') :
    (firstOutput ≤ g.output → w'.outputs = w.outputs + 1 ∧
      w'.wires.get? g.output = some (.output w.outputs)) ∧
    (g.output < firstOutput → w'.outputs = w.outputs) := by
  obtain ⟨_, r, w₁, hlower, rfl⟩ := step_eq_ok.mp h
  obtain ⟨_, _, hlowers⟩ := lower_lowers hlower
  refine ⟨fun hle => ?_, fun hlt => hlowers.inner (decide_eq_false (Nat.not_le.mpr hlt))⟩
  obtain ⟨houtputs, rfl, _⟩ := hlowers.last (decide_eq_true hle)
  exact ⟨houtputs, by rw [IndexMap.get?_set, if_pos rfl]⟩

/-- A walk hands out a ticket for every gate that writes a wire from the first named
output on, and keeps the last ticket of each wire. -/
theorem run_lastAt : ∀ {gs : List PlacedGate} {w : Walk}, run inputBits firstOutput w gs = .ok w' →
    w'.outputs = w.outputs + (outputWrites firstOutput gs).length ∧
    ∀ wire k, LastAt (outputWrites firstOutput gs) k wire →
      w'.wires.get? wire = some (.output (w.outputs + k))
  | [], w, h => by
      cases h
      exact ⟨rfl, fun wire k hk => absurd hk.get (by simp [outputWrites])⟩
  | g :: gs, w, h => by
      obtain ⟨w₁, hstep, hrun⟩ := run_cons_eq_ok.mp h
      obtain ⟨hout, hinner⟩ := step_ticket hstep
      obtain ⟨hcount, hlast⟩ := run_lastAt hrun
      rw [outputWrites_cons]
      split
      · rename_i hle
        obtain ⟨hnext, hget⟩ := hout hle
        refine ⟨by rw [hcount, hnext, List.length_cons]; omega, fun wire k hk => ?_⟩
        cases k with
        | zero =>
            -- no later gate writes the wire
            obtain rfl : g.gate.output = wire := Option.some.inj hk.get
            have hnot : ¬ Writes gs g.gate.output := fun hwrites => by
              obtain ⟨l, hl⟩ := exists_lastAt (mem_outputWrites.mpr ⟨hle, hwrites⟩)
              exact absurd (hk.last (l + 1) hl.get) (by omega)
            rw [run_get?_of_not_writes hrun hnot, hget, Nat.add_zero]
        | succ k =>
            have hlater := hlast wire k
              ⟨hk.get, fun j hj => Nat.le_of_succ_le_succ (hk.last (j + 1) hj)⟩
            rw [hlater, hnext, Nat.add_assoc, Nat.add_comm 1]
      · rename_i hlt
        rw [hinner (Nat.not_le.mp hlt)] at hcount hlast
        exact ⟨hcount, hlast⟩

end Walk

namespace Setup

/-- The wires from the first named output on that gates write. -/
def outputWires (s : Setup) (n : Netlist) : Set Nat :=
  {wire | firstOutputWire s.circuit n.wireCount ≤ wire ∧ Writes n.gates wire}

/-- A memory has the bits of the input block on the wires of the inputs. -/
def Loads (s : Setup) (ins : List Slot) (bits : List Bool) (m : Memory) : Prop :=
  ∀ wire k, Slot.place? (s.blockSlots ins) 0 wire = some k → m.read wire = bits.getD k false

namespace Compiles

variable {s : Setup} {n : Netlist} {ins outs : List Slot} {p : Placement} {w : Walk} {c : Compiled}

theorem length_outputWrites (h : s.Compiles n ins outs p w c) :
    (outputWrites (firstOutputWire s.circuit n.wireCount) n.gates).length =
      c.lowered.outputBits := by
  have hcount := (Walk.run_lastAt h.run).1
  rw [Walk.start, Nat.zero_add] at hcount
  rw [h.outputBits_eq, hcount]

/-- The place of a wire in the output block is the index at which it is written last. -/
theorem newWire?_eq_iff (h : s.Compiles n ins outs p w c) {wire : Nat}
    (hwire : wire ∈ s.outputWires n) (k : Nat) :
    c.newWire? wire = some (c.lowered.firstOutput + k) ↔
      LastAt (outputWrites (firstOutputWire s.circuit n.wireCount) n.gates) k wire := by
  have hplace : ∀ k, LastAt (outputWrites (firstOutputWire s.circuit n.wireCount) n.gates) k wire →
      c.newWire? wire = some (c.lowered.firstOutput + k) := by
    intro k hk
    have hget := (Walk.run_lastAt h.run).2 wire k hk
    rw [Walk.start, Nat.zero_add] at hget
    rw [h.newWire?_eq, hget, h.firstOutput_eq]
    rfl
  refine ⟨fun hnew => ?_, hplace k⟩
  obtain ⟨l, hl⟩ := exists_lastAt (mem_outputWrites.mpr hwire)
  have heq := Option.some.inj (hnew.symm.trans (hplace l hl))
  obtain rfl : k = l := by omega
  exact hl

theorem exists_place (h : s.Compiles n ins outs p w c) {wire : Nat}
    (hwire : wire ∈ s.outputWires n) :
    ∃ k < c.lowered.outputBits, c.newWire? wire = some (c.lowered.firstOutput + k) := by
  obtain ⟨k, hk⟩ := exists_lastAt (mem_outputWrites.mpr hwire)
  obtain ⟨hlt, _⟩ := List.getElem?_eq_some_iff.mp hk.get
  exact ⟨k, h.length_outputWrites ▸ hlt, (h.newWire?_eq_iff hwire k).mpr hk⟩

theorem firstOutput_add (h : s.Compiles n ins outs p w c) :
    c.lowered.firstOutput + c.lowered.outputBits = c.lowered.wireCount := by
  rw [h.firstOutput_eq, h.outputBits_eq, h.wireCount_eq]

/-- The wires written have places in the output block. -/
theorem outputWires_mapsTo (h : s.Compiles n ins outs p w c) :
    Set.MapsTo c.newWire? (s.outputWires n)
      (some '' Set.Ico c.lowered.firstOutput c.lowered.wireCount) := by
  intro wire hwire
  obtain ⟨k, hk, hnew⟩ := h.exists_place hwire
  have hend := h.firstOutput_add
  exact ⟨_, ⟨Nat.le_add_right _ _, by omega⟩, hnew.symm⟩

/-- Different wires have different places. -/
theorem outputWires_injOn (h : s.Compiles n ins outs p w c) :
    Set.InjOn c.newWire? (s.outputWires n) := by
  intro wire hwire wire' hwire' heq
  obtain ⟨k, _, hnew⟩ := h.exists_place hwire
  have hat := ((h.newWire?_eq_iff hwire k).mp hnew).get
  have hat' := ((h.newWire?_eq_iff hwire' k).mp (heq.symm.trans hnew)).get
  exact Option.some.inj (hat.symm.trans hat')

/-- A place of the output block belongs to the wire written last there, if any. -/
theorem exists_wire_iff (h : s.Compiles n ins outs p w c) (k : Nat) :
    (∃ wire ∈ s.outputWires n, c.newWire? wire = some (c.lowered.firstOutput + k)) ↔
      ∃ wire, LastAt (outputWrites (firstOutputWire s.circuit n.wireCount) n.gates) k wire := by
  constructor
  · rintro ⟨wire, hwire, hnew⟩
    exact ⟨wire, (h.newWire?_eq_iff hwire k).mp hnew⟩
  · rintro ⟨wire, hk⟩
    have hwire := mem_outputWrites.mp (List.mem_of_getElem? hk.get)
    exact ⟨wire, hwire, (h.newWire?_eq_iff hwire k).mpr hk⟩

/-- Every place belongs to a wire when no wire is written twice. -/
theorem forall_exists_wire_iff (h : s.Compiles n ins outs p w c) :
    (∀ k < c.lowered.outputBits, ∃ wire ∈ s.outputWires n,
        c.newWire? wire = some (c.lowered.firstOutput + k)) ↔
      (outputWrites (firstOutputWire s.circuit n.wireCount) n.gates).Nodup := by
  rw [← forall_lastAt_iff, h.length_outputWrites]
  exact forall₂_congr fun k _ => h.exists_wire_iff k

theorem outputWires_surjOn_iff (h : s.Compiles n ins outs p w c) :
    Set.SurjOn c.newWire? (s.outputWires n)
        (some '' Set.Ico c.lowered.firstOutput c.lowered.wireCount) ↔
      ∀ k < c.lowered.outputBits, ∃ wire ∈ s.outputWires n,
        c.newWire? wire = some (c.lowered.firstOutput + k) := by
  have hend := h.firstOutput_add
  constructor
  · intro hsurj k hk
    exact hsurj ⟨_, ⟨Nat.le_add_right _ _, by omega⟩, rfl⟩
  · rintro hall _ ⟨place, ⟨hfrom, hto⟩, rfl⟩
    obtain ⟨k, rfl⟩ := Nat.exists_eq_add_of_le hfrom
    exact hall k (by omega)

/-- A wire that is mapped has a place in the lowered circuit, and there its bit after all
gates. -/
theorem read_newWire (h : s.Compiles n ins outs p w c) {bits : List Bool} {m : Memory}
    (hm : s.Loads ins bits m) {wire k : Nat} (hk : c.newWire? wire = some k) :
    k < c.lowered.wireCount ∧ (c.lowered.run bits).read k = (n.run m).read wire := by
  rw [h.newWire?_eq, Option.map_eq_some_iff] at hk
  obtain ⟨r, hr, rfl⟩ := hk
  -- the references start with whatever the memory has at their places
  let start : WireRef → Bool := fun x => (Memory.ofBits bits).read (x.resolve w.next)
  have hstart := h.start_tracks start fun wire x hx => by
    obtain ⟨j, hj, rfl⟩ := h.start_get? hx
    rw [hm wire j hj, ← Memory.read_ofBits]
    rfl
  obtain ⟨htracks, _⟩ := Walk.run_tracks n.gates hstart (Nat.le_refl p.next) h.run
  have hissued := htracks.issued wire r hr
  refine ⟨h.wireCount_eq ▸ hissued.resolve_lt, ?_⟩
  have hsame : ∀ x : WireRef, x.Issued w.next w.outputs →
      (Memory.ofBits bits).read (x.resolve w.next) = start x := fun _ _ => rfl
  have hread := runRefs_resolve htracks.sound.gates hsame r hissued
  rw [← h.gates_eq, ← LoweredCircuit.run] at hread
  rw [hread]
  exact htracks.bit wire r hr

/-- The bit at the place of a wire is its bit after all gates. -/
theorem block_at (h : s.Compiles n ins outs p w c) {bits block : List Bool} {m : Memory}
    (heval : c.lowered.eval bits = .ok block) (hm : s.Loads ins bits m) {wire k : Nat}
    (hwire : wire ∈ s.outputWires n) (hk : c.newWire? wire = some (c.lowered.firstOutput + k)) :
    block[k]? = some ((n.run m).read wire) := by
  have hblock : block = (c.lowered.run bits).block c.lowered.firstOutput c.lowered.outputBits := by
    rw [LoweredCircuit.eval] at heval
    split at heval
    · cases heval
    · split at heval <;> cases heval
      rfl
  obtain ⟨_, hread⟩ := h.read_newWire hm hk
  have hlast := (h.newWire?_eq_iff hwire k).mp hk
  obtain ⟨hlt, _⟩ := List.getElem?_eq_some_iff.mp hlast.get
  rw [h.length_outputWrites] at hlt
  rw [hblock, Memory.block, List.getElem?_map, List.getElem?_range' hlt, Nat.one_mul,
    Option.map_some, hread]

end Compiles

/-- Where the output wires lie.  Every wire from the first named output on that gates write
has a place of its own in the output block, with its final bit.  These wires fill the
block exactly when none of them is written twice, which is also when there are as many of
them as the header announces output bits, and when every place belongs to exactly one of
them. -/
theorem outputBlock_iff {s : Setup} {c : Compiled} {n : Netlist} {ins : List Slot}
    (hcompile : s.compile = .ok c) (hparse : Netlist.parse s.circuit.text = .ok n)
    (hins : Slot.Ranked s.circuit.inputs n.inputWidths ins) :
    (Set.MapsTo c.newWire? (s.outputWires n)
        (some '' Set.Ico c.lowered.firstOutput c.lowered.wireCount) ∧
      Set.InjOn c.newWire? (s.outputWires n)) ∧
    (∀ bits block m, c.lowered.eval bits = .ok block → s.Loads ins bits m →
      ∀ wire ∈ s.outputWires n, ∀ k, c.newWire? wire = some (c.lowered.firstOutput + k) →
        block[k]? = some ((n.run m).read wire)) ∧
    (Set.BijOn c.newWire? (s.outputWires n)
        (some '' Set.Ico c.lowered.firstOutput c.lowered.wireCount) ↔
      (outputWrites (firstOutputWire s.circuit n.wireCount) n.gates).Nodup) ∧
    ((s.outputWires n).ncard = n.outputBits ↔
      (outputWrites (firstOutputWire s.circuit n.wireCount) n.gates).Nodup) ∧
    ((∀ k < c.lowered.outputBits, ∃! wire, wire ∈ s.outputWires n ∧
        c.newWire? wire = some (c.lowered.firstOutput + k)) ↔
      (outputWrites (firstOutputWire s.circuit n.wireCount) n.gates).Nodup) := by
  obtain ⟨n', ins', outs, p, w, h⟩ := compile_eq_ok_iff.mp hcompile
  obtain rfl : n = n' := Except.ok.inj (hparse.symm.trans h.parse)
  obtain rfl : ins = ins' := hins.unique h.inputs
  have hfill := h.forall_exists_wire_iff
  refine ⟨⟨h.outputWires_mapsTo, h.outputWires_injOn⟩, ?_, ?_, ?_, ?_⟩
  · intro bits block m heval hm wire hwire k hk
    exact h.block_at heval hm hwire hk
  · rw [← hfill, ← h.outputWires_surjOn_iff]
    exact ⟨Set.BijOn.surjOn, fun hsurj => ⟨h.outputWires_mapsTo, h.outputWires_injOn, hsurj⟩⟩
  · have hset : s.outputWires n =
        {x | x ∈ outputWrites (firstOutputWire s.circuit n.wireCount) n.gates} :=
      Set.ext fun wire => mem_outputWrites.symm
    rw [hset, ← h.count, ← h.outputBits_eq, ← h.length_outputWrites]
    exact ncard_mem_eq_length_iff
  · rw [← hfill]
    refine forall₂_congr fun k _ => ⟨ExistsUnique.exists, ?_⟩
    rintro ⟨wire, hwire, hk⟩
    refine ⟨wire, ⟨hwire, hk⟩, fun wire' hwire' => ?_⟩
    exact h.outputWires_injOn hwire'.1 hwire (hwire'.2.trans hk.symm)

theorem outputBlock_iff_rewriting : ∃ c, rewritingSetup.compile = .ok c ∧
    Set.BijOn c.newWire? (rewritingSetup.outputWires rewritingNetlist)
      (some '' Set.Ico c.lowered.firstOutput c.lowered.wireCount) ∧
    (rewritingSetup.outputWires rewritingNetlist).ncard = 3 := by
  obtain ⟨p, w, c, h⟩ := rewritingSetup_compiles
  have hc : rewritingSetup.compile = .ok c := compile_eq_ok_iff.mpr ⟨_, _, _, p, w, h⟩
  obtain ⟨_, _, hfill, hcount, _⟩ := outputBlock_iff hc h.parse h.inputs
  have hnodup : (outputWrites (firstOutputWire rewritingSetup.circuit 9)
      rewritingNetlist.gates).Nodup := by decide
  exact ⟨c, hc, hfill.mpr hnodup, hcount.mpr hnodup⟩

/-! ## An output wire that is written twice -/

/-- A setup whose gates write the first wire of its output twice and the second never. -/
def overwritingSetup : Setup :=
  { circuit :=
      { text := "2 4\n2 1 1\n1 2\n2 1 0 1 2 AND\n2 1 0 1 2 XOR"
        inputs := .ofList [("a", 0), ("b", 1)]
        outputs := .ofList [("c", 2)] }
    parties := [⟨"p0", ["a"], ["c"]⟩, ⟨"p1", ["b"], []⟩] }

/-- The netlist of this text. -/
def overwritingNetlist : Netlist :=
  { wireCount := 4
    inputWidths := [1, 1]
    outputWidths := [2]
    gates := [⟨4, .binary .and 0 1 2⟩, ⟨5, .binary .xor 0 1 2⟩]
    header := ⟨1, 2, 3⟩ }

/-- The compiler accepts it, with one wire written where the header announces two bits, and
the first bit of the output block is the bit of no wire. -/
theorem not_outputBlock_overwriting : ∃ c, overwritingSetup.compile = .ok c ∧
    Netlist.parse overwritingSetup.circuit.text = .ok overwritingNetlist ∧
    (overwritingSetup.outputWires overwritingNetlist).ncard = 1 ∧
    overwritingNetlist.outputBits = 2 ∧
    (¬ ∃ wire ∈ overwritingSetup.outputWires overwritingNetlist,
      c.newWire? wire = some c.lowered.firstOutput) ∧
    ¬ Set.BijOn c.newWire? (overwritingSetup.outputWires overwritingNetlist)
      (some '' Set.Ico c.lowered.firstOutput c.lowered.wireCount) := by
  have hparse : Netlist.parse overwritingSetup.circuit.text = .ok overwritingNetlist := by
    decide +kernel
  obtain ⟨c, hc⟩ := exists_ok_of_isOk (x := overwritingSetup.compile) (by decide +kernel)
  obtain ⟨n, ins, outs, p, w, h⟩ := compile_eq_ok_iff.mp hc
  obtain rfl : overwritingNetlist = n := Except.ok.inj (hparse.symm.trans h.parse)
  have hwires : overwritingSetup.outputWires overwritingNetlist = {2} := by
    ext wire
    have hwrites : wire ∈ overwritingSetup.outputWires overwritingNetlist ↔ wire ∈ [2, 2] :=
      mem_outputWrites.symm
    rw [hwrites]
    simp
  have hbits : c.lowered.outputBits = 2 := by
    rw [← h.length_outputWrites]
    rfl
  -- wire 2 has the place of its second gate
  have hnone : ¬ ∃ wire ∈ overwritingSetup.outputWires overwritingNetlist,
      c.newWire? wire = some (c.lowered.firstOutput + 0) := by
    rw [h.exists_wire_iff]
    rintro ⟨wire, hlast⟩
    exact absurd (hlast.last 1 hlast.get) (by decide)
  refine ⟨c, hc, hparse, ?_, rfl, hnone, fun hbij => hnone ?_⟩
  · rw [hwires, Set.ncard_singleton]
  · exact h.outputWires_surjOn_iff.mp hbij.surjOn 0 (by omega)

end Setup

end JointCircuit

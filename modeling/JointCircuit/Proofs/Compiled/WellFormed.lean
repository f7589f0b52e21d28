import JointCircuit.Proofs.Compiled.Meaning
import JointCircuit.Proofs.Lowering.Straight

/-!
# Lowered circuits are well formed

An engine may rely on the form of a lowered circuit (`LoweredCircuit.WellFormed`).
Every gate reads input wires and what gates before it wrote, no gate writes an input
wire, and every other wire is written by one gate.

`Setup.loweredRows` lists for each gate of the netlist the gates that were emitted for
it, at their final places.  The output block is written by the last gates of the rows of
those gates that write outputs, wire by wire in the order of the text.

Both are what `Walk.Straight` says, with every reference at its place: inner wires are
placed before the output block, and the place of a ticket grows with the ticket.
-/

namespace JointCircuit

/-! ## Places of the wires written -/

/-- The gates that write the output block. -/
def LoweredCircuit.outputGates (c : LoweredCircuit) : List (LoweredGate Nat) :=
  c.gates.filter fun g => c.firstOutput ≤ g.output

/-- The form of a circuit that an engine relies on. -/
structure LoweredCircuit.WellFormed (c : LoweredCircuit) : Prop where
  blocks : c.inputBits + c.outputBits ≤ c.wireCount
  /-- A gate reads input wires and outputs of gates before it. -/
  reads : ∀ (i : Nat) (g : LoweredGate Nat), c.gates[i]? = some g → ∀ x ∈ g.operands,
    x < c.inputBits ∨ ∃ j < i, ∃ d, c.gates[j]? = some d ∧ d.output = x
  /-- No gate writes an input wire. -/
  writes : ∀ g ∈ c.gates, c.inputBits ≤ g.output
  /-- Every other wire is written by one gate. -/
  once : ∀ wire, c.inputBits ≤ wire → wire < c.wireCount →
    (c.gates.map LoweredGate.output).count wire = 1
  range : ∀ g ∈ c.gates, g.output < c.wireCount ∧ ∀ x ∈ g.operands, x < c.wireCount

/-- The places written are those of the inner wires and those of the tickets. -/
theorem written_perm (next : Nat) (gs : List (LoweredGate WireRef)) :
    (gs.map fun g => g.output.resolve next).Perm
      (innerWritten gs ++ (ticketsWritten gs).map (next + ·)) := by
  induction gs with
  | nil => exact .refl _
  | cons g gs ih =>
      rw [List.map_cons]
      cases hg : g.output with
      | placed k =>
          simp only [innerWritten, ticketsWritten, List.filterMap_cons, hg, WireRef.inner?,
            WireRef.ticket?, WireRef.resolve, List.cons_append]
          exact ih.cons k
      | output t =>
          simp only [innerWritten, ticketsWritten, List.filterMap_cons, hg, WireRef.inner?,
            WireRef.ticket?, WireRef.resolve, List.map_cons]
          exact (ih.cons _).trans List.perm_middle.symm

/-- The gates that write tickets write the places of the tickets. -/
theorem ticketsWritten_resolve (next : Nat) (gs : List (LoweredGate WireRef)) :
    (gs.filter LoweredGate.writesTicket).map (fun g => g.output.resolve next) =
      (ticketsWritten gs).map (next + ·) := by
  induction gs with
  | nil => rfl
  | cons g gs ih =>
      cases hg : g.output with
      | placed k =>
          simp only [ticketsWritten, List.filterMap_cons, List.filter_cons,
            LoweredGate.writesTicket, hg, WireRef.ticket?, Option.isSome_none]
          exact ih
      | output t =>
          simp only [ticketsWritten, List.filterMap_cons, List.filter_cons,
            LoweredGate.writesTicket, hg, WireRef.ticket?, Option.isSome_some, if_true,
            List.map_cons, WireRef.resolve]
          exact congrArg _ ih

namespace Walk

variable {inputBits : Nat} {w : Walk}

/-- The wires behind the inputs are written in turn, up to the end of the output block. -/
theorem Straight.written (h : w.Straight inputBits) :
    (w.gates.toList.map fun g => g.output.resolve w.next).Perm
      (List.range' inputBits (w.next + w.outputs - inputBits)) := by
  have hperm := written_perm w.next w.gates.toList
  obtain ⟨k, hk⟩ := Nat.exists_eq_add_of_le h.le
  have hinner : w.next - inputBits = k := by omega
  have hall : w.next + w.outputs - inputBits = k + w.outputs := by omega
  rw [h.inner, h.tickets, List.map_add_range', Nat.add_zero, hinner] at hperm
  rwa [hall, ← List.range'_append_1, ← hk]

/-- A gate writes into the output block when it writes a ticket. -/
theorem Straight.writesTicket_iff (h : w.Straight inputBits) {g : LoweredGate WireRef}
    (hg : g ∈ w.gates.toList) :
    w.next ≤ g.output.resolve w.next ↔ g.writesTicket = true := by
  cases hout : g.output with
  | placed k =>
      have hmem : k ∈ innerWritten w.gates.toList :=
        List.mem_filterMap.mpr ⟨g, hg, by rw [hout, WireRef.inner?]⟩
      rw [h.inner, List.mem_range'_1] at hmem
      simp only [LoweredGate.writesTicket, hout, WireRef.ticket?, WireRef.resolve]
      have hle := h.le
      simp only [Option.isSome_none, Bool.false_eq_true, iff_false]
      omega
  | output t => simp [LoweredGate.writesTicket, hout, WireRef.ticket?, WireRef.resolve]

/-- Behind inputs that are placed, the walk starts without a gate and with their wires. -/
theorem start_straight {wireCount : Nat} {slots : List Slot} {p : Placement}
    (hcover : Placement.coverSlots wireCount .empty slots = .ok p) :
    (Walk.start p.wires p.next).Straight p.next where
  le := Nat.le_refl _
  inner := by simp [Walk.start, innerWritten]
  tickets := rfl
  reads := by simp [Walk.start]
  wires := by
    intro wire r hr
    obtain ⟨hnext, _, hget⟩ := Placement.coverSlots_ok hcover
    rw [Walk.start, hget wire, Placement.empty, IndexMap.get?_empty, Option.or_none,
      Option.map_eq_some_iff] at hr
    obtain ⟨k, hk, rfl⟩ := hr
    have hlt : k < p.next := by
      rw [hnext]
      exact Slot.place?_lt hk
    exact ⟨Nat.zero_lt_of_lt hlt, .inl ⟨k, hlt, rfl⟩⟩
  zero := nofun

end Walk

/-! ## The lowered circuit of a setup -/

namespace Setup

/-- What was emitted for each gate of a netlist, with an output block from `firstOutput`
on. -/
def loweredRows (s : Setup) (n : Netlist) (p : Placement) (firstOutput : Nat) :
    List (List (LoweredGate Nat)) :=
  (Walk.emitted p.next (firstOutputWire s.circuit n.wireCount) (Walk.start p.wires p.next)
    n.gates).map (List.map (LoweredGate.map (WireRef.resolve firstOutput)))

namespace Compiles

variable {s : Setup} {n : Netlist} {ins outs : List Slot} {p : Placement} {w : Walk} {c : Compiled}

theorem start_straight (h : s.Compiles n ins outs p w c) :
    (Walk.start p.wires p.next).Straight p.next :=
  Walk.start_straight h.cover

theorem straight (h : s.Compiles n ins outs p w c) : w.Straight p.next :=
  (h.start_straight.run h.run).1

/-- The wires written are those behind the inputs, each once. -/
theorem written (h : s.Compiles n ins outs p w c) :
    (c.lowered.gates.map LoweredGate.output).Perm
      (List.range' p.next (c.lowered.wireCount - p.next)) := by
  have hperm := h.straight.written
  rw [h.gates_eq, h.wireCount_eq, List.map_map]
  simpa only [Function.comp_def, LoweredGate.output_map] using hperm

/-- What a lowered gate reads is an input wire or was written before. -/
theorem reads (h : s.Compiles n ins outs p w c) {i : Nat} {g : LoweredGate Nat}
    (hg : c.lowered.gates[i]? = some g) {x : Nat} (hx : x ∈ g.operands) :
    x < p.next ∨ ∃ j < i, ∃ d, c.lowered.gates[j]? = some d ∧ d.output = x := by
  rw [h.gates_eq, List.getElem?_map, Option.map_eq_some_iff] at hg
  obtain ⟨g', hg', rfl⟩ := hg
  rw [LoweredGate.operands_map, List.mem_map] at hx
  obtain ⟨r, hr, rfl⟩ := hx
  rcases h.straight.reads i g' hg' r hr with ⟨k, hk, rfl⟩ | ⟨d, hd, rfl⟩
  · exact .inl hk
  · obtain ⟨j, hj⟩ := List.mem_iff_getElem?.mp hd
    rw [List.getElem?_take] at hj
    split at hj
    · rename_i hlt
      refine .inr ⟨j, hlt, d.map (WireRef.resolve w.next), ?_, LoweredGate.output_map _ d⟩
      rw [h.gates_eq, List.getElem?_map, hj, Option.map_some]
    · cases hj

theorem wellFormed (h : s.Compiles n ins outs p w c)
    (hfit : ∀ t ∈ ins, t.wire + t.width ≤ maxIndex) : c.lowered.WellFormed := by
  have hinput := h.inputBits_eq fun t ht _ => hfit t ht
  have hle := h.straight.le
  have hbounds : ∀ wire, wire ∈ c.lowered.gates.map LoweredGate.output ↔
      p.next ≤ wire ∧ wire < c.lowered.wireCount := by
    intro wire
    have hwires := h.wireCount_eq
    rw [h.written.mem_iff, List.mem_range'_1]
    omega
  have hoperands : ∀ g ∈ c.lowered.gates, ∀ x ∈ g.operands, x < c.lowered.wireCount := by
    intro g hg x hx
    obtain ⟨i, hi⟩ := List.mem_iff_getElem?.mp hg
    rcases h.reads hi hx with hlt | ⟨j, _, d, hd, rfl⟩
    · have hwires := h.wireCount_eq
      omega
    · exact ((hbounds _).mp (List.mem_map_of_mem (List.mem_of_getElem? hd))).2
  constructor
  · rw [hinput, h.outputBits_eq, h.wireCount_eq]
    omega
  · intro i g hg x hx
    rw [hinput]
    exact h.reads hg hx
  · intro g hg
    rw [hinput]
    exact ((hbounds _).mp (List.mem_map_of_mem hg)).1
  · intro wire hfrom hto
    rw [hinput] at hfrom
    have hmem := (hbounds wire).mpr ⟨hfrom, hto⟩
    exact List.count_eq_one_of_mem (h.written.nodup_iff.mpr (List.nodup_range' ..)) hmem
  · intro g hg
    exact ⟨((hbounds _).mp (List.mem_map_of_mem hg)).2, hoperands g hg⟩

/-! ## The output block -/

/-- The gates that write the output block are those that write tickets. -/
theorem outputGates_eq (h : s.Compiles n ins outs p w c) :
    c.lowered.outputGates = (w.gates.toList.filter LoweredGate.writesTicket).map
      (LoweredGate.map (WireRef.resolve w.next)) := by
  rw [LoweredCircuit.outputGates, h.firstOutput_eq, h.gates_eq, List.filter_map]
  congr 1
  refine List.filter_congr fun g hg => ?_
  have hiff := h.straight.writesTicket_iff hg
  simp only [Function.comp_apply, LoweredGate.output_map]
  rw [Bool.eq_iff_iff, decide_eq_true_eq, hiff]

/-- The output block is written wire by wire. -/
theorem outputGates_written (h : s.Compiles n ins outs p w c) :
    c.lowered.outputGates.map LoweredGate.output =
      List.range' c.lowered.firstOutput c.lowered.outputBits := by
  rw [h.outputGates_eq, List.map_map]
  simp only [Function.comp_def, LoweredGate.output_map]
  rw [ticketsWritten_resolve, h.straight.tickets, List.map_add_range', Nat.add_zero,
    h.firstOutput_eq, h.outputBits_eq]

/-- The rows are the lowered gates, a row for each gate of the netlist, and the output
block is written by the last gates of the rows for gates that write outputs. -/
theorem loweredRows_spec (h : s.Compiles n ins outs p w c) :
    (s.loweredRows n p c.lowered.firstOutput).length = n.gates.length ∧
      (s.loweredRows n p c.lowered.firstOutput).flatten = c.lowered.gates ∧
      c.lowered.outputGates.map some =
        ((n.gates.zip (s.loweredRows n p c.lowered.firstOutput)).filter
          fun e => firstOutputWire s.circuit n.wireCount ≤ e.1.gate.output).map
            fun e => e.2.getLast? := by
  obtain ⟨_, hlen, hgates, hlast⟩ := h.start_straight.run h.run
  replace hgates : w.gates.toList = (Walk.emitted p.next (firstOutputWire s.circuit n.wireCount)
    (Walk.start p.wires p.next) n.gates).flatten := hgates
  rw [h.firstOutput_eq, loweredRows]
  refine ⟨?_, ?_, ?_⟩
  · rw [List.length_map, hlen]
  · rw [← List.map_flatten, h.gates_eq, hgates]
  · rw [h.outputGates_eq, hgates, List.map_map]
    have hplaced := congrArg
      (List.map (Option.map (LoweredGate.map (WireRef.resolve w.next)))) hlast
    rw [List.map_map, List.map_map] at hplaced
    rw [List.zip_map_right, List.filter_map, List.map_map]
    simpa only [Function.comp_def, Option.map_some, Prod.map_fst, Prod.map_snd, id_eq,
      List.getLast?_map] using hplaced

end Compiles

/-- The lowered circuit of a setup is well formed.  The output block is written, wire by
wire, by the last gates emitted for the gates of the netlist that write a wire from the
first named output on, in the order of the text.  Any row of bits for the inputs can be
run, and gives a row of bits for the outputs. -/
theorem lowered_wellFormed {s : Setup} {c : Compiled} {n : Netlist} {ins : List Slot}
    (hcompile : s.compile = .ok c) (hparse : Netlist.parse s.circuit.text = .ok n)
    (hins : Slot.Ranked s.circuit.inputs n.inputWidths ins)
    (hfit : ∀ t ∈ ins, t.wire + t.width ≤ maxIndex) :
    c.lowered.WellFormed ∧
    (∃ p, Placement.coverSlots n.wireCount .empty (s.blockSlots ins) = .ok p ∧
      (s.loweredRows n p c.lowered.firstOutput).length = n.gates.length ∧
      (s.loweredRows n p c.lowered.firstOutput).flatten = c.lowered.gates ∧
      c.lowered.outputGates.map some =
        ((n.gates.zip (s.loweredRows n p c.lowered.firstOutput)).filter
          fun e => firstOutputWire s.circuit n.wireCount ≤ e.1.gate.output).map
            fun e => e.2.getLast?) ∧
    c.lowered.outputGates.map LoweredGate.output =
      List.range' c.lowered.firstOutput c.lowered.outputBits ∧
    ∀ bits : List Bool, bits.length = c.lowered.inputBits →
      ∃ block, c.lowered.eval bits = .ok block ∧ block.length = c.lowered.outputBits := by
  obtain ⟨n', ins', outs, p, w, h⟩ := compile_eq_ok_iff.mp hcompile
  obtain rfl : n = n' := Except.ok.inj (hparse.symm.trans h.parse)
  obtain rfl : ins = ins' := hins.unique h.inputs
  refine ⟨h.wellFormed hfit, ⟨p, h.cover, h.loweredRows_spec⟩, h.outputGates_written, ?_⟩
  intro bits hlen
  rw [h.inputBits_eq fun t ht _ => hfit t ht] at hlen
  exact ⟨_, h.eval_lowered hfit hlen, Memory.length_block _ _ _⟩

theorem lowered_wellFormed_rewriting : ∃ c, rewritingSetup.compile = .ok c ∧
    c.lowered.WellFormed ∧ c.lowered.outputGates.length = 3 ∧
    ∃ block, c.lowered.eval [true, false, true] = .ok block ∧ block.length = 3 := by
  obtain ⟨p, w, c, h⟩ := rewritingSetup_compiles
  have hc : rewritingSetup.compile = .ok c := compile_eq_ok_iff.mpr ⟨_, _, _, p, w, h⟩
  have hfit : ∀ t ∈ rewritingInputs, t.wire + t.width ≤ maxIndex := by decide
  have hends : ∀ t ∈ rewritingInputs, t.Ends := fun t ht _ => hfit t ht
  have hinput : c.lowered.inputBits = 3 := (h.inputBits_eq hends).trans (h.next_eq hends)
  have houtput : c.lowered.outputBits = 3 := h.outputBits_eq.trans h.count
  obtain ⟨hform, _, houtputs, hrun⟩ := lowered_wellFormed hc h.parse h.inputs hfit
  have hgates : c.lowered.outputGates.length = 3 := by
    have hlen := congrArg List.length houtputs
    rwa [List.length_map, List.length_range', houtput] at hlen
  obtain ⟨block, hblock, hlen⟩ := hrun [true, false, true] hinput.symm
  exact ⟨c, hc, hform, hgates, block, hblock, hlen.trans houtput⟩

end Setup

end JointCircuit

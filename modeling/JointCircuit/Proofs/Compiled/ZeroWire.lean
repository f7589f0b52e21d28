import JointCircuit.Proofs.Compiled.GateCount
import JointCircuit.Proofs.Lowering.ZeroWire

/-!
# The zero wire is unset

The place of the zero wire is written by one gate of the lowered circuit, and this gate
combines a wire with itself (`Setup.Compiles.eq_xor_of_output`).  No input stands there.  So
the place is unset from the first gate to the last, whatever the inputs are
(`Setup.zeroWire_unset`).

The same statement says how the walk comes to its zero wire and that it keeps it: at the gate
where there is a zero wire for the first time, what is emitted starts with the gate that
writes it (`Walk.Records`).
-/

namespace JointCircuit

/-- A place stays unset when it was unset and is written only by gates that combine a wire
with itself. -/
theorem LoweredGate.read_foldl_run {place : Nat} {gs : List (LoweredGate Nat)} {m : Memory}
    (hgs : ∀ g ∈ gs, g.output = place → ∃ x, g = .xor x x place) (hm : m.read place = false) :
    Memory.read (gs.foldl LoweredGate.run m) place = false := by
  induction gs generalizing m with
  | nil => exact hm
  | cons g gs ih =>
      rw [List.forall_mem_cons] at hgs
      obtain ⟨hg, hgs⟩ := hgs
      refine ih hgs ?_
      rw [LoweredGate.run_eq, Memory.read_set]
      split
      · rename_i hplace
        obtain ⟨x, rfl⟩ := hg hplace.symm
        exact Bool.xor_self _
      · exact hm

namespace Setup

/-- The walk over the gates of a setup comes to the state `w`, with the gates `rest` to come. -/
def WalksTo (s : Setup) (n : Netlist) (p : Placement) (w : Walk) (rest : List PlacedGate) : Prop :=
  ∃ before, n.gates = before ++ rest ∧
    Walk.run p.next (firstOutputWire s.circuit n.wireCount) (Walk.start p.wires p.next) before
      = .ok w

section Way

variable {s : Setup} {n : Netlist} {slots : List Slot} {p : Placement} {w w' : Walk}
variable {rest : List PlacedGate} {r : WireRef}

theorem WalksTo.straight (hcover : Placement.coverSlots n.wireCount .empty slots = .ok p)
    (hw : s.WalksTo n p w rest) : w.Straight p.next := by
  obtain ⟨before, _, hrun⟩ := hw
  exact ((Walk.start_straight hcover).run hrun).1

/-- A zero wire on the way is written by a gate emitted before. -/
theorem WalksTo.zeroed (hcover : Placement.coverSlots n.wireCount .empty slots = .ok p)
    (hw : s.WalksTo n p w rest) (hr : w.zero = some r) : w.Zeroed r := by
  obtain ⟨before, _, hrun⟩ := hw
  exact (Walk.start_straight hcover).run_zeroed hrun nofun r hr

/-- A gate that is taken has an operand, and so there is an input. -/
theorem WalksTo.next_pos (hcover : Placement.coverSlots n.wireCount .empty slots = .ok p)
    {g : Gate} (hw : s.WalksTo n p w rest)
    (hstep : Walk.step p.next (firstOutputWire s.circuit n.wireCount) w g = .ok w') :
    0 < p.next := by
  have hstraight := hw.straight hcover
  have hreads := Walk.step_reads hstep
  cases g with
  | binary op left right output =>
      obtain ⟨x, hx⟩ := hreads left List.mem_cons_self
      exact (hstraight.wires left x hx).1
  | unary op input output =>
      obtain ⟨x, hx⟩ := hreads input List.mem_cons_self
      exact (hstraight.wires input x hx).1

end Way

namespace Compiles

variable {s : Setup} {n : Netlist} {ins outs : List Slot} {p : Placement} {w w' : Walk}
variable {c : Compiled} {rest : List PlacedGate} {r : WireRef}

/-- Gates emitted on the way are gates of the lowered circuit, at their places. -/
theorem mem_gates (h : s.Compiles n ins outs p w c) (hw : s.WalksTo n p w' rest)
    {g : LoweredGate WireRef} (hg : g ∈ w'.gates.toList) :
    g.map (WireRef.resolve w.next) ∈ c.lowered.gates := by
  have hstraight := hw.straight h.cover
  obtain ⟨before, hsplit, hrun⟩ := hw
  obtain ⟨w₁, hrun₁, hrest⟩ := h.exists_behind hsplit
  obtain rfl := Except.ok.inj (hrun.symm.trans hrun₁)
  obtain ⟨_, _, hgates, _⟩ := hstraight.run hrest
  rw [h.gates_eq, hgates]
  exact List.mem_map_of_mem (List.mem_append_left _ hg)

/-- The place of a zero wire is written by one gate, which combines a wire with itself. -/
theorem eq_xor_of_output (h : s.Compiles n ins outs p w c) (hw : s.WalksTo n p w' rest)
    (hr : w'.zero = some r) :
    p.next ≤ r.resolve w.next ∧ ∀ g ∈ c.lowered.gates, g.output = r.resolve w.next →
      ∃ x, g = .xor x x (r.resolve w.next) := by
  obtain ⟨x, hx⟩ := hw.zeroed h.cover hr
  have hmem := h.mem_gates hw hx
  have hplace : r.resolve w.next ∈ c.lowered.gates.map LoweredGate.output :=
    List.mem_map_of_mem hmem
  rw [h.written.mem_iff, List.mem_range'_1] at hplace
  have hnodup : (c.lowered.gates.map LoweredGate.output).Nodup :=
    h.written.nodup_iff.mpr (List.nodup_range' ..)
  refine ⟨hplace.1, fun g hg hout => ⟨x.resolve w.next, ?_⟩⟩
  exact List.inj_on_of_nodup_map hnodup hg hmem hout

/-- The place of a zero wire is unset after any number of gates. -/
theorem read_zero (h : s.Compiles n ins outs p w c) (hw : s.WalksTo n p w' rest)
    (hr : w'.zero = some r) {bits : List Bool} (hlen : bits.length = p.next) (count : Nat) :
    Memory.read ((c.lowered.gates.take count).foldl LoweredGate.run (Memory.ofBits bits))
      (r.resolve c.lowered.firstOutput) = false := by
  obtain ⟨hle, hgates⟩ := h.eq_xor_of_output hw hr
  rw [h.firstOutput_eq]
  refine LoweredGate.read_foldl_run (fun g hg => hgates g (List.mem_of_mem_take hg)) ?_
  rw [Memory.read_ofBits, List.getD_eq_getElem?_getD, List.getElem?_eq_none (by omega),
    Option.getD_none]

end Compiles

/-- Take a setup with inputs that are placed on wires whose numbers fit.

When it compiles, then whatever zero wire there is at a point of the walk over its gates, a
gate has been emitted that writes it, it is the zero wire from there on, and in the lowered
circuit it is unset after any number of gates, on any input bits.

Compiling or not, where a gate is taken there is an input, so a zero wire is never made from a
wire of its own, and where the zero wire is taken, it is the exclusive disjunction of two equal
references or is made from the first input. -/
theorem zeroWire_unset {s : Setup} {n : Netlist} {ins : List Slot} {p : Placement}
    (hparse : Netlist.parse s.circuit.text = .ok n)
    (hins : Slot.Ranked s.circuit.inputs n.inputWidths ins)
    (hcover : Placement.coverSlots n.wireCount .empty (s.blockSlots ins) = .ok p)
    (hfit : ∀ t ∈ ins, t.wire + t.width ≤ maxIndex) :
    (∀ c, s.compile = .ok c → ∀ w rest r, s.WalksTo n p w rest → w.zero = some r →
      w.Zeroed r ∧
      (∀ gs after w', rest = gs ++ after →
        Walk.run p.next (firstOutputWire s.circuit n.wireCount) w gs = .ok w' →
          w'.zero = some r) ∧
      ∀ bits : List Bool, bits.length = c.lowered.inputBits →
        (∃ block, c.lowered.eval bits = .ok block) ∧
        (c.lowered.run bits).read (r.resolve c.lowered.firstOutput) = false ∧
        ∀ count, Memory.read ((c.lowered.gates.take count).foldl LoweredGate.run (.ofBits bits))
          (r.resolve c.lowered.firstOutput) = false) ∧
    ∀ w g rest w', s.WalksTo n p w (g :: rest) →
      Walk.step p.next (firstOutputWire s.circuit n.wireCount) w g.gate = .ok w' →
        0 < p.next ∧ w.zeroSource p.next = (.placed 0, w) ∧
        ∀ r, w.zero = none → w'.zero = some r →
          Walk.Records p.next (firstOutputWire s.circuit n.wireCount) w w' r g.gate := by
  constructor
  · intro c hcompile w rest r hw hr
    obtain ⟨outs, p', w₁, h⟩ := exists_compiles hcompile hparse hins
    obtain rfl : p = p' := Except.ok.inj (hcover.symm.trans h.cover)
    refine ⟨hw.zeroed hcover hr, fun gs after w' _ hrun => Walk.run_zero_stays hrun hr, ?_⟩
    intro bits hlen
    rw [h.inputBits_eq fun t ht _ => hfit t ht] at hlen
    have hunset := h.read_zero hw hr hlen
    refine ⟨⟨_, h.eval_lowered hfit hlen⟩, ?_, hunset⟩
    have hall := hunset c.lowered.gates.length
    rwa [List.take_length] at hall
  · intro w g rest w' hw hstep
    have hpos := hw.next_pos hcover hstep
    exact ⟨hpos, Walk.zeroSource_eq w hpos, fun r hnone hr =>
      (hw.straight hcover).step_records hstep hnone hr⟩

/-- The copy of wire 4 to the output wire 6 finds no zero wire and has one made. -/
theorem zeroWire_unset_rewriting : ∃ c p w w' r, rewritingSetup.compile = .ok c ∧
    rewritingSetup.WalksTo rewritingNetlist p w (rewritingNetlist.gates.drop 3) ∧
    rewritingSetup.WalksTo rewritingNetlist p w' (rewritingNetlist.gates.drop 4) ∧
    w.zero = none ∧ w'.zero = some r ∧ Walk.Records p.next 6 w w' r (.unary .copy 4 6) ∧
    (c.lowered.run [true, false, true]).read (r.resolve c.lowered.firstOutput) = false := by
  obtain ⟨p, w₀, c, h⟩ := rewritingSetup_compiles
  have hc : rewritingSetup.compile = .ok c := compile_eq_ok_iff.mpr ⟨_, _, _, p, w₀, h⟩
  have hfit : ∀ t ∈ rewritingInputs, t.wire + t.width ≤ maxIndex := by decide
  have hinput : c.lowered.inputBits = 3 :=
    (h.inputBits_eq fun t ht _ => hfit t ht).trans (h.next_eq fun t ht _ => hfit t ht)
  have hsplit : rewritingNetlist.gates =
      rewritingNetlist.gates.take 3 ++ rewritingNetlist.gates.drop 3 := rfl
  obtain ⟨w, hrun, hrest⟩ := h.exists_behind hsplit
  obtain ⟨w', hstep, _⟩ := Walk.run_cons_eq_ok.mp hrest
  have hw : rewritingSetup.WalksTo rewritingNetlist p w (rewritingNetlist.gates.drop 3) :=
    ⟨_, rfl, hrun⟩
  have hw' : rewritingSetup.WalksTo rewritingNetlist p w' (rewritingNetlist.gates.drop 4) :=
    ⟨rewritingNetlist.gates.take 4, rfl,
      Walk.run_append_eq_ok.mpr ⟨w, hrun, Walk.run_cons_eq_ok.mpr ⟨w', hstep, rfl⟩⟩⟩
  have hnone : w.zero = none := by
    rw [← Option.not_isSome_iff_eq_none, Walk.run_zero hrun]
    -- no gate before the copy offers a zero wire
    have hquiet : ∀ g ∈ rewritingNetlist.gates.take 3,
        g.gate.isBinary .xor = false ∧ g.gate.copiesOut 6 = false := by decide
    rintro (hstart | ⟨before, g, after, _, hsplit, _, hcopies | ⟨_, _, _, hg, _⟩⟩)
    · cases hstart
    · have hmem : g ∈ rewritingNetlist.gates.take 3 := hsplit ▸ by simp
      exact absurd hcopies (Bool.eq_false_iff.mp (hquiet g hmem).2)
    · have hmem : g ∈ rewritingNetlist.gates.take 3 := hsplit ▸ by simp
      have hxor := (hquiet g hmem).1
      rw [hg] at hxor
      cases hxor
  obtain ⟨r, hr⟩ := Option.isSome_iff_exists.mp ((Walk.step_pays hstep).zero.mpr (.inr (.inl rfl)))
  obtain ⟨hpoints, hgates⟩ := zeroWire_unset h.parse h.inputs h.cover hfit
  obtain ⟨_, _, hbits⟩ := hpoints c hc w' _ r hw' hr
  obtain ⟨_, _, hrecords⟩ := hgates w _ _ w' hw hstep
  exact ⟨c, p, w, w', r, hc, hw, hw', hnone, hr, hrecords r hnone hr,
    (hbits [true, false, true] hinput.symm).2.1⟩

end Setup

end JointCircuit

import JointCircuit.Proofs.Compiled.WellFormed
import JointCircuit.Proofs.Lowering.Accounting
import JointCircuit.Proofs.Lowering.Aliases

/-!
# How many gates a lowered circuit has

The number of gates of a lowered circuit is the price of the gates of its netlist, kind by
kind, and one more when a gate asks for a zero wire.  The gate that asks is the first copy to
an output wire, when no gate before it is an exclusive disjunction of two wires that were
mapped to one lowered wire (`Setup.AsksForZero`).  Two operands of a gate are mapped to one
lowered wire when they have one origin, which may be through copies
(`Setup.Compiles.wireBehind_eq_iff`).  So it is told from the gates alone which of them asks
for a zero wire (`PlacedGate.LacksZero`).

`Setup.gateCount` says this for the circuit and for what is emitted for each gate.
-/

namespace JointCircuit

@[simp] theorem LoweredGate.isAnd_map {V W : Type} (f : V → W) (g : LoweredGate V) :
    (g.map f).isAnd = g.isAnd := by
  cases g <;> rfl

/-- A gate behind a row of gates is the first copy to an output wire, and no gate before it is
an exclusive disjunction of two wires with one origin. -/
structure PlacedGate.LacksZero (firstOutput : Nat) (before : List PlacedGate) (g : PlacedGate) :
    Prop where
  copies : g.gate.copiesOut firstOutput = true
  first : ∀ d ∈ before, d.gate.copiesOut firstOutput = false
  xors : ∀ early d late left right output, before = early ++ d :: late →
    d.gate = .binary .xor left right output →
    (Origins.start.run firstOutput early).of left ≠ (Origins.start.run firstOutput early).of right

namespace Setup

/-- The lowered wire a wire is mapped to behind a row of gates. -/
def wireBehind (s : Setup) (n : Netlist) (p : Placement) (firstOutput : Nat)
    (before : List PlacedGate) (wire : Nat) : Option Nat :=
  match Walk.run p.next (firstOutputWire s.circuit n.wireCount) (Walk.start p.wires p.next)
    before with
  | .ok w => (w.wires.get? wire).map (WireRef.resolve firstOutput)
  | .error _ => none

/-- A gate behind a row of gates is the first copy to an output wire, and no gate before it is
an exclusive disjunction of two wires that were mapped to one lowered wire. -/
structure AsksForZero (s : Setup) (n : Netlist) (p : Placement) (firstOutput : Nat)
    (before : List PlacedGate) (g : PlacedGate) : Prop where
  copies : g.gate.copiesOut (firstOutputWire s.circuit n.wireCount) = true
  first : ∀ d ∈ before, d.gate.copiesOut (firstOutputWire s.circuit n.wireCount) = false
  xors : ∀ early d late left right output, before = early ++ d :: late →
    d.gate = .binary .xor left right output →
    s.wireBehind n p firstOutput early left ≠ s.wireBehind n p firstOutput early right

/-- A gate of the netlist asks for a zero wire. -/
def MakesZero (s : Setup) (n : Netlist) (p : Placement) (firstOutput : Nat) : Prop :=
  ∃ before g after, n.gates = before ++ g :: after ∧ s.AsksForZero n p firstOutput before g

namespace Compiles

variable {s : Setup} {n : Netlist} {ins outs : List Slot} {p : Placement} {w w' : Walk}
variable {c : Compiled} {before after : List PlacedGate}

theorem wireBehind_eq (h : s.Compiles n ins outs p w c)
    (hrun : Walk.run p.next (firstOutputWire s.circuit n.wireCount) (Walk.start p.wires p.next)
      before = .ok w') (wire : Nat) :
    s.wireBehind n p c.lowered.firstOutput before wire =
      (w'.wires.get? wire).map (WireRef.resolve w.next) := by
  simp only [wireBehind, hrun, h.firstOutput_eq]

/-- A walk over the gates goes on from the state behind the first of them. -/
theorem exists_behind (h : s.Compiles n ins outs p w c) (hsplit : n.gates = before ++ after) :
    ∃ w', Walk.run p.next (firstOutputWire s.circuit n.wireCount) (Walk.start p.wires p.next)
        before = .ok w' ∧
      Walk.run p.next (firstOutputWire s.circuit n.wireCount) w' after = .ok w := by
  have hrun := h.run
  rw [hsplit] at hrun
  exact Walk.run_append_eq_ok.mp hrun

/-- What a wire is mapped to behind some of the gates is handed out behind all of them. -/
theorem issued_behind (h : s.Compiles n ins outs p w c)
    (hbefore : Walk.run p.next (firstOutputWire s.circuit n.wireCount) (Walk.start p.wires p.next)
      before = .ok w')
    (hafter : Walk.run p.next (firstOutputWire s.circuit n.wireCount) w' after = .ok w)
    {wire : Nat} {r : WireRef} (hr : w'.wires.get? wire = some r) : w.Issued r := by
  obtain ⟨_, _, hstart⟩ := h.exists_start_tracks
  obtain ⟨htracks, hinput⟩ := Walk.run_tracks before hstart (Nat.le_refl p.next) hbefore
  exact Walk.run_issued htracks hinput hafter r (htracks.issued wire r hr)

/-- Two operands of a gate are mapped to references, and to one lowered wire when these are
the same. -/
theorem exists_mapped (h : s.Compiles n ins outs p w c) {g : PlacedGate}
    (hsplit : n.gates = before ++ g :: after)
    (hrun : Walk.run p.next (firstOutputWire s.circuit n.wireCount) (Walk.start p.wires p.next)
      before = .ok w') {a b : Nat} (ha : a ∈ g.gate.operands) (hb : b ∈ g.gate.operands) :
    ∃ x y, w'.wires.get? a = some x ∧ w'.wires.get? b = some y ∧
      (s.wireBehind n p c.lowered.firstOutput before a =
        s.wireBehind n p c.lowered.firstOutput before b ↔ x = y) := by
  obtain ⟨w₁, hrun₁, hrest⟩ := h.exists_behind hsplit
  obtain rfl := Except.ok.inj (hrun.symm.trans hrun₁)
  obtain ⟨w₂, hstep, _⟩ := Walk.run_cons_eq_ok.mp hrest
  obtain ⟨x, hx⟩ := Walk.step_reads hstep a ha
  obtain ⟨y, hy⟩ := Walk.step_reads hstep b hb
  refine ⟨x, y, hx, hy, ?_⟩
  rw [h.wireBehind_eq hrun, h.wireBehind_eq hrun, hx, hy, Option.map_some, Option.map_some,
    Option.some.injEq]
  exact ⟨WireRef.resolve_inj (h.issued_behind hrun hrest hx) (h.issued_behind hrun hrest hy),
    congrArg _⟩

/-- The operands of a gate that is taken are mapped to one reference when they are mapped to
one lowered wire. -/
theorem xorsEqual_iff (h : s.Compiles n ins outs p w c) {d : PlacedGate}
    (hsplit : n.gates = before ++ d :: after)
    (hrun : Walk.run p.next (firstOutputWire s.circuit n.wireCount) (Walk.start p.wires p.next)
      before = .ok w') :
    w'.XorsEqual d.gate ↔ ∃ left right output, d.gate = .binary .xor left right output ∧
      s.wireBehind n p c.lowered.firstOutput before left =
        s.wireBehind n p c.lowered.firstOutput before right := by
  refine exists_congr fun left => exists_congr fun right => exists_congr fun output =>
    and_congr_right fun hd => ?_
  have hleft : left ∈ d.gate.operands := hd ▸ List.mem_cons_self ..
  have hright : right ∈ d.gate.operands :=
    hd ▸ List.mem_cons_of_mem _ (List.mem_cons_self ..)
  obtain ⟨x, y, hx, hy, heq⟩ := h.exists_mapped hsplit hrun hleft hright
  rw [heq, hx, hy]
  constructor
  · rintro ⟨r, hxr, hyr⟩
    exact Option.some.inj (hxr.trans hyr.symm)
  · rintro rfl
    exact ⟨x, rfl, rfl⟩

/-- Before the first gate different wires are mapped to different references. -/
theorem start_aliases (h : s.Compiles n ins outs p w c) :
    (Walk.start p.wires p.next).Aliases .start := by
  obtain ⟨_, _, hstart⟩ := h.exists_start_tracks
  refine ⟨hstart.issued, fun wire _ _ place hplace => ?_, fun a b x y hx hy => ?_⟩
  · cases hplace
  · obtain ⟨i, hi, rfl⟩ := h.start_get? hx
    obtain ⟨j, hj, rfl⟩ := h.start_get? hy
    constructor
    · intro heq
      obtain rfl := WireRef.placed.inj heq
      rw [Slot.place?_inj hi hj]
    · intro heq
      obtain rfl := Origin.input.inj heq
      exact congrArg WireRef.placed (Option.some.inj (hi.symm.trans hj))

/-- Two wires that a gate reads are mapped to one lowered wire when they have one origin. -/
theorem wireBehind_eq_iff (h : s.Compiles n ins outs p w c) {g : PlacedGate}
    (hsplit : n.gates = before ++ g :: after) {a b : Nat} (ha : a ∈ g.gate.operands)
    (hb : b ∈ g.gate.operands) :
    s.wireBehind n p c.lowered.firstOutput before a =
        s.wireBehind n p c.lowered.firstOutput before b ↔
      (Origins.start.run (firstOutputWire s.circuit n.wireCount) before).of a =
        (Origins.start.run (firstOutputWire s.circuit n.wireCount) before).of b := by
  obtain ⟨w₁, hrun, _⟩ := h.exists_behind hsplit
  obtain ⟨x, y, hx, hy, heq⟩ := h.exists_mapped hsplit hrun ha hb
  obtain ⟨_, _, hstart⟩ := h.exists_start_tracks
  have haliases := h.start_aliases.run hstart (Nat.le_refl p.next) hrun
  rw [heq, haliases.same a b x y hx hy]

/-- A gate asks for a zero wire when no gate before it offers one. -/
theorem asks_iff (h : s.Compiles n ins outs p w c) {g : PlacedGate}
    (hsplit : n.gates = before ++ g :: after)
    (hrun : Walk.run p.next (firstOutputWire s.circuit n.wireCount) (Walk.start p.wires p.next)
      before = .ok w') :
    Walk.Asks (firstOutputWire s.circuit n.wireCount) w' g.gate ↔
      s.AsksForZero n p c.lowered.firstOutput before g := by
  have hzero := Walk.run_zero hrun
  rw [Walk.Asks, Bool.and_eq_true, Bool.not_eq_true', Bool.eq_false_iff, ne_eq, hzero]
  constructor
  · rintro ⟨hcopies, hnone⟩
    rw [not_or] at hnone
    refine ⟨hcopies, fun d hd => ?_, fun early d late left right output hbefore hd heq => ?_⟩
    · obtain ⟨early, late, rfl⟩ := List.append_of_mem hd
      obtain ⟨w₁, hearly, _⟩ := Walk.run_append_eq_ok.mp hrun
      refine Bool.eq_false_iff.mpr fun hd => ?_
      exact hnone.2 ⟨early, d, late, w₁, rfl, hearly, .inl hd⟩
    · subst hbefore
      rw [List.append_assoc] at hsplit
      obtain ⟨w₁, hearly, _⟩ := Walk.run_append_eq_ok.mp hrun
      refine hnone.2 ⟨early, d, late, w₁, rfl, hearly, .inr ?_⟩
      exact (h.xorsEqual_iff hsplit hearly).mpr ⟨left, right, output, hd, heq⟩
  · rintro ⟨hcopies, hfirst, hxors⟩
    refine ⟨hcopies, ?_⟩
    rintro (hstart | ⟨early, d, late, w₁, rfl, hearly, hd | hd⟩)
    · cases hstart
    · rw [hfirst d (List.mem_append_right _ (List.mem_cons_self ..))] at hd
      cases hd
    · rw [List.append_assoc] at hsplit
      obtain ⟨left, right, output, hgate, heq⟩ := (h.xorsEqual_iff hsplit hearly).mp hd
      exact hxors early d late left right output rfl hgate heq

theorem makesZero_iff (h : s.Compiles n ins outs p w c) :
    Walk.Meets p.next (firstOutputWire s.circuit n.wireCount)
        (Walk.Asks (firstOutputWire s.circuit n.wireCount)) (Walk.start p.wires p.next) n.gates ↔
      s.MakesZero n p c.lowered.firstOutput := by
  constructor
  · rintro ⟨before, g, after, w₁, hsplit, hrun, hasks⟩
    exact ⟨before, g, after, hsplit, (h.asks_iff hsplit hrun).mp hasks⟩
  · rintro ⟨before, g, after, hsplit, hasks⟩
    obtain ⟨w₁, hrun, _⟩ := h.exists_behind hsplit
    exact ⟨before, g, after, w₁, hsplit, hrun, (h.asks_iff hsplit hrun).mpr hasks⟩

/-- Which gate asks for a zero wire is told by the origins of the wires before it. -/
theorem asksForZero_iff (h : s.Compiles n ins outs p w c) {g : PlacedGate}
    (hsplit : n.gates = before ++ g :: after) :
    s.AsksForZero n p c.lowered.firstOutput before g ↔
      g.LacksZero (firstOutputWire s.circuit n.wireCount) before := by
  -- the operands of an exclusive disjunction before the gate
  have horigins : ∀ early d late left right output, before = early ++ d :: late →
      d.gate = .binary .xor left right output →
      (s.wireBehind n p c.lowered.firstOutput early left =
          s.wireBehind n p c.lowered.firstOutput early right ↔
        (Origins.start.run (firstOutputWire s.circuit n.wireCount) early).of left =
          (Origins.start.run (firstOutputWire s.circuit n.wireCount) early).of right) := by
    intro early d late left right output hbefore hd
    have hearly : n.gates = early ++ d :: (late ++ g :: after) := by
      rw [hsplit, hbefore, List.append_assoc, List.cons_append]
    refine h.wireBehind_eq_iff hearly ?_ ?_
    · exact hd ▸ List.mem_cons_self ..
    · exact hd ▸ List.mem_cons_of_mem _ (List.mem_cons_self ..)
  constructor
  · rintro ⟨hcopies, hfirst, hxors⟩
    refine ⟨hcopies, hfirst, fun early d late left right output hbefore hd heq => ?_⟩
    exact hxors early d late left right output hbefore hd
      ((horigins early d late left right output hbefore hd).mpr heq)
  · rintro ⟨hcopies, hfirst, hxors⟩
    refine ⟨hcopies, hfirst, fun early d late left right output hbefore hd heq => ?_⟩
    exact hxors early d late left right output hbefore hd
      ((horigins early d late left right output hbefore hd).mp heq)

/-! ## Counts -/

theorem length_gates (h : s.Compiles n ins outs p w c) :
    ∃ z, c.lowered.gates.length =
        priceOf (firstOutputWire s.circuit n.wireCount) n.gates + z ∧
      (s.MakesZero n p c.lowered.firstOutput ∧ z = 1 ∨
        ¬ s.MakesZero n p c.lowered.firstOutput ∧ z = 0) := by
  obtain ⟨z, hsize, hz⟩ := Walk.run_size h.run
  rw [h.makesZero_iff] at hz
  refine ⟨z, ?_, hz⟩
  rw [h.gates_eq, List.length_map, Array.length_toList, hsize]
  exact congrArg (· + z) (Nat.zero_add _)

theorem andGates_eq (h : s.Compiles n ins outs p w c) :
    c.lowered.andGates =
      countGates (Gate.isBinary .and) n.gates + countGates (Gate.isBinary .or) n.gates := by
  have hands := Walk.run_andCount h.run
  rw [LoweredCircuit.andGates, h.gates_eq, List.countP_map]
  simp only [Function.comp_def, LoweredGate.isAnd_map]
  exact hands.trans (Nat.zero_add _)

/-- What is emitted for a gate is its price, and one gate more when it asks for a zero wire. -/
theorem length_row (h : s.Compiles n ins outs p w c) {g : PlacedGate}
    (hsplit : n.gates = before ++ g :: after) :
    ∃ row, (s.loweredRows n p c.lowered.firstOutput)[before.length]? = some row ∧
      (s.AsksForZero n p c.lowered.firstOutput before g ∧
          row.length = g.gate.price (firstOutputWire s.circuit n.wireCount) + 1 ∨
        ¬ s.AsksForZero n p c.lowered.firstOutput before g ∧
          row.length = g.gate.price (firstOutputWire s.circuit n.wireCount)) := by
  obtain ⟨w₁, hrun, hrest⟩ := h.exists_behind hsplit
  obtain ⟨w₂, hstep, _⟩ := Walk.run_cons_eq_ok.mp hrest
  have hpays := Walk.step_pays hstep
  rw [loweredRows, List.getElem?_map, hsplit, Walk.getElem?_emitted hrun hstep, Option.map_some]
  refine ⟨_, rfl, ?_⟩
  rw [← h.asks_iff hsplit hrun, Walk.Asks, List.length_map, List.length_drop, Array.length_toList,
    hpays.size]
  cases g.gate.copiesOut (firstOutputWire s.circuit n.wireCount) && !w₁.zero.isSome with
  | true => exact .inl ⟨rfl, by rw [Bool.toNat_true]; omega⟩
  | false => exact .inr ⟨Bool.false_ne_true, by rw [Bool.toNat_false]; omega⟩

/-- Nothing is emitted for a copy to an inner wire. -/
theorem row_eq_nil (h : s.Compiles n ins outs p w c) {g : PlacedGate}
    (hsplit : n.gates = before ++ g :: after) (hcopy : g.gate.isUnary .copy = true)
    (hinner : g.gate.output < firstOutputWire s.circuit n.wireCount) :
    (s.loweredRows n p c.lowered.firstOutput)[before.length]? = some [] := by
  obtain ⟨row, hrow, hlen⟩ := h.length_row hsplit
  rcases hlen with ⟨hasks, _⟩ | ⟨_, hlen⟩
  · exact absurd (Gate.copiesOut_iff.mp hasks.copies).2 (Nat.not_le.mpr hinner)
  · rw [Gate.price_of_innerCopy hcopy hinner] at hlen
    rw [hrow, List.eq_nil_of_length_eq_zero hlen]

end Compiles

/-- The lowered circuit of a setup has a conjunction for each conjunction and each disjunction
of the netlist.  It has a gate for each conjunction, exclusive disjunction and negation, four
for each disjunction, one for each copy to an output wire, and one more when a zero wire is
made.  What is emitted for a gate is its price, with one gate more for the one that asks for
the zero wire, and nothing for a copy to an inner wire.  The gate that asks is the first copy
to an output wire, unless an exclusive disjunction before it has two operands of one
origin. -/
theorem gateCount {s : Setup} {c : Compiled} {n : Netlist} {ins : List Slot} {p : Placement}
    (hcompile : s.compile = .ok c) (hparse : Netlist.parse s.circuit.text = .ok n)
    (hins : Slot.Ranked s.circuit.inputs n.inputWidths ins)
    (hcover : Placement.coverSlots n.wireCount .empty (s.blockSlots ins) = .ok p) :
    c.lowered.andGates =
      countGates (Gate.isBinary .and) n.gates + countGates (Gate.isBinary .or) n.gates ∧
    (∃ z, c.lowered.gates.length =
        countGates (Gate.isBinary .and) n.gates + countGates (Gate.isBinary .xor) n.gates +
          countGates (Gate.isUnary .not) n.gates + 4 * countGates (Gate.isBinary .or) n.gates +
          countGates (Gate.copiesOut (firstOutputWire s.circuit n.wireCount)) n.gates + z ∧
      (s.MakesZero n p c.lowered.firstOutput ∧ z = 1 ∨
        ¬ s.MakesZero n p c.lowered.firstOutput ∧ z = 0)) ∧
    (s.loweredRows n p c.lowered.firstOutput).flatten = c.lowered.gates ∧
    ∀ before g after, n.gates = before ++ g :: after →
      (∃ row, (s.loweredRows n p c.lowered.firstOutput)[before.length]? = some row ∧
        (s.AsksForZero n p c.lowered.firstOutput before g ∧
            row.length = g.gate.price (firstOutputWire s.circuit n.wireCount) + 1 ∨
          ¬ s.AsksForZero n p c.lowered.firstOutput before g ∧
            row.length = g.gate.price (firstOutputWire s.circuit n.wireCount))) ∧
      (g.gate.isUnary .copy = true → g.gate.output < firstOutputWire s.circuit n.wireCount →
        (s.loweredRows n p c.lowered.firstOutput)[before.length]? = some []) ∧
      (s.AsksForZero n p c.lowered.firstOutput before g ↔
        g.LacksZero (firstOutputWire s.circuit n.wireCount) before) := by
  obtain ⟨outs, p', w, h⟩ := exists_compiles hcompile hparse hins
  obtain rfl : p = p' := Except.ok.inj (hcover.symm.trans h.cover)
  have hlength := h.length_gates
  rw [priceOf_eq] at hlength
  exact ⟨h.andGates_eq, hlength, h.loweredRows_spec.2.1, fun before g after hsplit =>
    ⟨h.length_row hsplit, h.row_eq_nil hsplit, h.asksForZero_iff hsplit⟩⟩

/-- The disjunction costs four gates, and the first copy to an output wire asks for a zero
wire. -/
theorem gateCount_rewriting : ∃ c, rewritingSetup.compile = .ok c ∧
    c.lowered.andGates = 1 ∧ c.lowered.gates.length = 9 := by
  obtain ⟨p, w, c, h⟩ := rewritingSetup_compiles
  have hc : rewritingSetup.compile = .ok c := compile_eq_ok_iff.mpr ⟨_, _, _, p, w, h⟩
  obtain ⟨hands, ⟨z, hlength, hz⟩, _⟩ := gateCount hc h.parse h.inputs h.cover
  have hmakes : rewritingSetup.MakesZero rewritingNetlist p c.lowered.firstOutput := by
    refine ⟨rewritingNetlist.gates.take 3, ⟨7, .unary .copy 4 6⟩, rewritingNetlist.gates.drop 4,
      rfl, rfl, ?_, ?_⟩
    · decide
    · intro early d late left right output hsplit hd
      -- no gate before the copy is an exclusive disjunction
      have hnone : ∀ g ∈ rewritingNetlist.gates.take 3, g.gate.isBinary .xor = false := by decide
      have hmem : d ∈ rewritingNetlist.gates.take 3 :=
        hsplit ▸ List.mem_append_right _ (List.mem_cons_self ..)
      have hxor := hnone d hmem
      rw [hd] at hxor
      cases hxor
  obtain ⟨_, rfl⟩ := hz.resolve_right fun hnot => hnot.1 hmakes
  exact ⟨c, hc, hands, hlength⟩

end Setup

end JointCircuit

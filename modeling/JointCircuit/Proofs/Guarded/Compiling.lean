import JointCircuit.Proofs.Circuit.Lines
import JointCircuit.Proofs.Compiled.Meaning
import JointCircuit.Proofs.Guarded.Placing
import JointCircuit.Proofs.Guarded.Reading

/-!
# Compiling, guarded

The map of wires is a row with an element for each wire of the circuit, and a gate reads
and writes it by position.  The counters of the walk are words, and so are the places that
its references get at the end, which have to be wires of the lowered circuit.

The reader refused every gate with a wire the circuit does not have.  A gate hands out
four wires at most (`Walk.lower_budget`), so the counters stay words when the numbers in
the header leave room for that (`Netlist.Countable`).  Every reference was handed out,
which puts its place below the number of wires.

`Guarded.compile_eq` is about all setups whose netlist is countable.
-/

namespace JointCircuit

/-! ## Wires handed out -/

namespace Walk

variable {w w' : Walk} {r : WireRef} {inputBits firstOutput : Nat}

/-- The number of wires handed out, the input wires among them. -/
def handedOut (w : Walk) : Nat := w.next + w.outputs

@[simp] theorem handedOut_fresh (w : Walk) : w.fresh.2.handedOut = w.handedOut + 1 :=
  Nat.succ_add w.next w.outputs

@[simp] theorem handedOut_freshOutput (w : Walk) : w.freshOutput.2.handedOut = w.handedOut + 1 :=
  rfl

@[simp] theorem handedOut_freshFor (w : Walk) (toOutput : Bool) :
    (w.freshFor toOutput).2.handedOut = w.handedOut + 1 := by
  cases toOutput
  · exact w.handedOut_fresh
  · rfl

@[simp] theorem handedOut_emit (w : Walk) (g : LoweredGate WireRef) :
    (w.emit g).handedOut = w.handedOut := rfl

@[simp] theorem handedOut_offerZero (w : Walk) (r : WireRef) :
    (w.offerZero r).handedOut = w.handedOut := rfl

theorem zeroSource_budget (w : Walk) (inputBits : Nat) :
    (w.zeroSource inputBits).2.handedOut ≤ w.handedOut + 1 := by
  unfold zeroSource
  split <;> simp

theorem demandZero_budget (w : Walk) (inputBits : Nat) :
    (w.demandZero inputBits).2.handedOut ≤ w.handedOut + 2 := by
  unfold demandZero
  cases w.zero with
  | some zero => exact Nat.le_add_right _ _
  | none =>
      have hsource := w.zeroSource_budget inputBits
      simp only [handedOut_offerZero, handedOut_emit, handedOut_fresh]
      omega

theorem emitBinary_budget (w : Walk) (op : BinaryOp) (x y : WireRef) (toOutput : Bool) :
    (w.emitBinary op x y toOutput).2.handedOut ≤ w.handedOut + 4 := by
  cases op with
  | and => simp [emitBinary]
  | xor =>
      unfold emitBinary
      simp only
      split <;> simp
  | or => simp [emitBinary]

theorem emitUnary_budget (w : Walk) (inputBits : Nat) (op : UnaryOp) (x : WireRef)
    (toOutput : Bool) : (w.emitUnary inputBits op x toOutput).2.handedOut ≤ w.handedOut + 4 := by
  cases op with
  | not => simp [emitUnary]
  | copy =>
      unfold emitUnary
      have hzero := w.demandZero_budget inputBits
      cases toOutput with
      | false => simp
      | true =>
          simp only [if_true, handedOut_emit, handedOut_freshOutput]
          omega

/-- Lowering a gate hands out four wires at most. -/
theorem lower_budget {toOutput : Bool} {g : Gate} (h : w.lower inputBits toOutput g = .ok (r, w')) :
    w'.handedOut ≤ w.handedOut + 4 := by
  cases g with
  | binary op left right output =>
      obtain ⟨x, _, h⟩ := bind_eq_ok.mp h
      obtain ⟨y, _, h⟩ := bind_eq_ok.mp h
      have hbudget := w.emitBinary_budget op x y toOutput
      rwa [Except.ok.inj h] at hbudget
  | unary op input output =>
      obtain ⟨x, _, h⟩ := bind_eq_ok.mp h
      have hbudget := w.emitUnary_budget inputBits op x toOutput
      rwa [Except.ok.inj h] at hbudget

theorem step_budget {g : Gate} (h : step inputBits firstOutput w g = .ok w') :
    w'.handedOut ≤ w.handedOut + 4 := by
  obtain ⟨_, r, w₁, hlower, rfl⟩ := step_eq_ok.mp h
  have hbudget := lower_budget hlower
  exact hbudget

theorem run_budget :
    ∀ {gs : List PlacedGate} {w : Walk}, run inputBits firstOutput w gs = .ok w' →
      w'.handedOut ≤ w.handedOut + 4 * gs.length
  | [], _, h => by
      cases h
      exact Nat.le_refl _
  | g :: gs, w, h => by
      obtain ⟨w₁, hstep, hrun⟩ := run_cons_eq_ok.mp h
      have hfirst := step_budget hstep
      have hrest := run_budget hrun
      rw [List.length_cons]
      omega

end Walk

/-! ## Netlists whose numbers are words -/

/-- The sums of the widths are words, and so is the number of wires with the four that a
gate may need.  The last holds whenever the map of wires and the gates lie together in a
memory that is addressed by words, since a gate takes more than four bytes of it. -/
structure Netlist.Countable (n : Netlist) : Prop where
  inputs : n.inputBits ≤ maxIndex
  outputs : n.outputBits ≤ maxIndex
  wires : n.wireCount + 4 * n.gates.length ≤ maxIndex

/-- If the text of a setup is a netlist, its numbers are words. -/
def Setup.Countable (s : Setup) : Prop :=
  ∀ n, Netlist.parse s.circuit.text = .ok n → n.Countable

namespace Guarded

/-! ## The walk -/

/-- Take one gate.  The counters only grow, so that they are words behind the gate says
that they were at every wire handed out for it. -/
def step (wireCount inputBits firstOutput : Nat) (w : Walk) (g : Gate) :
    Guarded CircuitFault Walk :=
  let toOutput := decide (firstOutput ≤ g.output)
  if !toOutput && w.sawOutput then .error (.refused (.innerAfterOutput g.output))
  else do
    -- lowering looks the operands up in the map of wires
    forM g.operands fun wire => within wire wireCount
    let (z, w) ← refuse ({ w with sawOutput := toOutput }.lower inputBits toOutput g)
    let next ← word w.next
    let outputs ← word w.outputs
    within g.output wireCount
    .ok { w with next, outputs, wires := w.wires.set g.output z }

/-- Take the gates in order. -/
def run (wireCount inputBits firstOutput : Nat) :
    Walk → List PlacedGate → Guarded FormatError Walk
  | w, [] => .ok w
  | w, g :: gs => do
      let w ← atLine g.line (step wireCount inputBits firstOutput w g.gate)
      run wireCount inputBits firstOutput w gs

/-- Walk over the gates of a circuit whose inputs are placed. -/
def walk (s : Setup) (n : Netlist) (p : Placement) : Guarded FormatError Walk := do
  let firstOutput := firstOutputWire s.circuit n.wireCount
  let w ← run n.wireCount p.next firstOutput (Walk.start p.wires p.next) n.gates
  let outputBits ← total n.outputWidths
  if w.outputs = outputBits then .ok w
  else .error (.refused ⟨n.header.outputs, .outputCount outputBits w.outputs⟩)

variable {wireCount inputBits firstOutput : Nat}

/-- A step on wires of the circuit does what it does without guards. -/
theorem step_eq {w : Walk} {g : Gate} (hg : g.output < wireCount ∧ ∀ x ∈ g.operands, x < wireCount)
    (hroom : w.handedOut + 4 ≤ maxIndex) :
    step wireCount inputBits firstOutput w g = refuse (Walk.step inputBits firstOutput w g) := by
  unfold step Walk.step
  simp only
  split
  · rfl
  · rw [forM_eq fun x hx => within_eq (hg.2 x hx), ok_bind]
    refine bind_eq_refuse rfl fun (z, w₁) hlower => ?_
    have hbudget := Walk.lower_budget hlower
    simp only [Walk.handedOut] at hbudget hroom
    simp only [word_eq (show w₁.next ≤ maxIndex by omega),
      word_eq (show w₁.outputs ≤ maxIndex by omega), within_eq hg.1]
    rfl

theorem run_eq :
    ∀ {gs : List PlacedGate} {w : Walk},
      (∀ g ∈ gs, g.gate.output < wireCount ∧ ∀ x ∈ g.gate.operands, x < wireCount) →
      w.handedOut + 4 * gs.length ≤ maxIndex →
      run wireCount inputBits firstOutput w gs = refuse (Walk.run inputBits firstOutput w gs)
  | [], _, _, _ => rfl
  | g :: gs, w, hgs, hroom => by
      rw [List.forall_mem_cons] at hgs
      rw [List.length_cons] at hroom
      rw [run, Walk.run, step_eq hgs.1 (by omega), atLine_refuse]
      cases hstep : Walk.step inputBits firstOutput w g.gate with
      | error fault => rfl
      | ok w₁ =>
          have hbudget := Walk.step_budget hstep
          exact run_eq hgs.2 (by omega)

theorem walk_eq {s : Setup} {n : Netlist} {p : Placement} (hcount : n.Countable)
    (hgates : ∀ g ∈ n.gates, g.gate.output < n.wireCount ∧ ∀ x ∈ g.gate.operands, x < n.wireCount)
    (hnext : p.next ≤ n.wireCount) : walk s n p = refuse (s.walk n p) := by
  have hroom : (Walk.start p.wires p.next).handedOut + 4 * n.gates.length ≤ maxIndex := by
    have hwires := hcount.wires
    simp only [Walk.start, Walk.handedOut]
    omega
  refine bind_eq_refuse (run_eq hgates hroom) fun w _ => ?_
  rw [total_eq hcount.outputs, ok_bind]
  change ite (w.outputs = n.outputBits) _ _ = refuse (ite (w.outputs = n.outputBits) _ _)
  split <;> rfl

/-! ## Assembling -/

section

variable {ε : Type} (next wireCount : Nat)

/-- The place of a reference, which has to be a wire of the lowered circuit. -/
def resolve (r : WireRef) : Guarded ε Nat := do
  let wire ← word (r.resolve next)
  within wire wireCount
  .ok wire

/-- A gate with its references at their places. -/
def resolveGate : LoweredGate WireRef → Guarded ε (LoweredGate Nat)
  | .and x y z => do
      .ok (.and (← resolve next wireCount x) (← resolve next wireCount y)
        (← resolve next wireCount z))
  | .xor x y z => do
      .ok (.xor (← resolve next wireCount x) (← resolve next wireCount y)
        (← resolve next wireCount z))
  | .inv x z => do .ok (.inv (← resolve next wireCount x) (← resolve next wireCount z))

end

/-- The compiled setup at the end of a walk. -/
def assemble (s : Setup) (n : Netlist) (l : Layout) (w : Walk) : Guarded FormatError Compiled := do
  let wireCount ← add w.next w.outputs
  let gates ← w.gates.toList.mapM (resolveGate w.next wireCount)
  forM (List.range n.wireCount) fun wire =>
    match w.wires.get? wire with
    | some r => do
        let _ ← resolve w.next wireCount r
        .ok ()
    | none => .ok ()
  let outputBits ← total n.outputWidths
  let _ ← minus wireCount outputBits
  let outputs ← (Slot.rank s.circuit.outputs).mapM fun e => do
    .ok ⟨e.1, e.2, ← lookUp l.outputWidths e.1⟩
  let _ ← total l.partyBits
  .ok
    { parties := s.parties
      fingerprint := s.fingerprint
      lowered := { gates, wireCount, partyBits := l.partyBits, outputBits }
      inputs := l.inputs
      outputs
      wires := w.wires.map (WireRef.resolve w.next) }

/-- The failure of a stage that reads the circuit. -/
def formatStage {α : Type} (x : Guarded FormatError α) : Guarded CompileError α :=
  x.mapError (Halt.map .format)

theorem formatStage_refuse {α : Type} (x : Except FormatError α) :
    formatStage (refuse x) = refuse (JointCircuit.formatStage x) :=
  (refuse_mapError _ x).symm

/-- Compile a setup. -/
def compile (s : Setup) : Guarded CompileError Compiled := do
  let n ← formatStage (parse s.circuit.text)
  refuse (s.check.mapError .settings)
  let l ← formatStage (layOut s n)
  let w ← formatStage (walk s n l.placement)
  formatStage (assemble s n l w)

section

variable {ε : Type} {next outputs : Nat}

/-- A reference that was handed out has its place on the wires. -/
theorem resolve_eq {r : WireRef} (hr : r.Issued next outputs) (hroom : next + outputs ≤ maxIndex) :
    (resolve next (next + outputs) r : Guarded ε Nat) = .ok (r.resolve next) := by
  have hlt := hr.resolve_lt
  rw [resolve, word_eq (by omega), ok_bind, within_eq hlt]
  rfl

theorem resolveGate_eq {g : LoweredGate WireRef} (hg : g.Issued next outputs)
    (hroom : next + outputs ≤ maxIndex) :
    (resolveGate next (next + outputs) g : Guarded ε (LoweredGate Nat)) =
      .ok (g.map (WireRef.resolve next)) := by
  obtain ⟨hout, hops⟩ := hg
  cases g with
  | and x y z =>
      simp only [LoweredGate.operands, List.forall_mem_cons] at hops
      rw [resolveGate, resolve_eq hops.1 hroom, resolve_eq hops.2.1 hroom,
        resolve_eq (r := z) hout hroom]
      rfl
  | xor x y z =>
      simp only [LoweredGate.operands, List.forall_mem_cons] at hops
      rw [resolveGate, resolve_eq hops.1 hroom, resolve_eq hops.2.1 hroom,
        resolve_eq (r := z) hout hroom]
      rfl
  | inv x z =>
      simp only [LoweredGate.operands, List.forall_mem_cons] at hops
      rw [resolveGate, resolve_eq hops.1 hroom, resolve_eq (r := z) hout hroom]
      rfl

end

/-- The outputs by rank have their widths in the table. -/
theorem outputs_eq {ε : Type} {table : NameTable Nat} {widths : List Nat} {outs : List Slot}
    (houts : Slot.Ranked table widths outs) :
    ((Slot.rank table).mapM fun e => do
      .ok (⟨e.1, e.2, ← lookUp (Slot.widthTable outs) e.1⟩ : Slot) : Guarded ε (List Slot)) =
      .ok outs := by
  have hfind : ∀ t ∈ outs, (Slot.widthTable outs).find? t.name = some t.width :=
    fun t ht => Slot.find?_widthTable houts.nodup_names ht
  rw [← houts.map_entry, mapM_eq
    (g := fun e => ⟨e.1, e.2, ((Slot.widthTable outs).find? e.1).getD 0⟩)]
  · rw [List.map_map]
    refine congrArg Except.ok ((List.map_congr_left fun t ht => ?_).trans (List.map_id outs))
    simp only [Function.comp_apply, Slot.entry, hfind t ht, Option.getD_some, id_eq]
  · intro e he
    obtain ⟨t, ht, rfl⟩ := List.mem_map.mp he
    rw [Slot.entry, lookUp_eq (hfind t ht), hfind t ht]
    rfl

variable {s : Setup} {n : Netlist} {ins outs : List Slot} {p : Placement} {w : Walk}
  {c : Compiled}

/-- At the end of a walk everything that is asked for is there. -/
theorem assemble_eq (h : s.Compiles n ins outs p w c) (hcount : n.Countable)
    (hroom : w.next + w.outputs ≤ maxIndex) :
    assemble s n (Layout.of ⟨s.partySlots ins, outs, p⟩) w = .ok c := by
  obtain ⟨v, m, htracks, _⟩ := h.exists_tracks
  have hgates : w.gates.toList.mapM (resolveGate w.next (w.next + w.outputs)) =
      (.ok (w.gates.toList.map (LoweredGate.map (WireRef.resolve w.next))) :
        Guarded FormatError _) :=
    mapM_eq fun g hg => resolveGate_eq (htracks.sound.gates g hg) hroom
  have hwires : ∀ wire ∈ List.range n.wireCount, (match w.wires.get? wire with
      | some r => do
          let _ ← resolve w.next (w.next + w.outputs) r
          .ok ()
      | none => .ok () : Guarded FormatError Unit) = .ok () := by
    intro wire _
    cases hr : w.wires.get? wire with
    | none => rfl
    | some r =>
        simp only [resolve_eq (htracks.issued wire r hr) hroom]
        rfl
  have hbits : ((s.partySlots ins).map slotBits).sum ≤ maxIndex := by
    rw [← slotBits_flatten]
    exact (Setup.slotBits_blockSlots h.fits h.inputs).trans_le hcount.inputs
  have hdifference : n.outputBits ≤ w.next + w.outputs := by
    rw [← h.count]
    exact Nat.le_add_left _ _
  rw [assemble, add_eq hroom, ok_bind, hgates, ok_bind, forM_eq hwires, ok_bind,
    total_eq hcount.outputs, ok_bind]
  change (minus (w.next + w.outputs) n.outputBits >>= _) = _
  rw [minus_eq hdifference, ok_bind, Layout.of]
  simp only [outputs_eq h.outputs, ok_bind, total_eq hbits]
  rw [h.result, Setup.assemble, h.count]
  rfl

/-- A setup with a countable netlist is compiled without a breakdown. -/
theorem compile_eq {s : Setup} (hcount : s.Countable) : compile s = refuse s.compile := by
  unfold compile
  rw [parse_eq, formatStage_refuse]
  refine bind_eq_refuse rfl fun n hn => bind_eq_refuse rfl fun _ hcheck => ?_
  have hparse := mapError_eq_ok.mp hn
  have hfits := Setup.check_eq_ok_iff.mp (mapError_eq_ok.mp hcheck)
  replace hcount := hcount n hparse
  rw [layOut_eq hfits hcount.inputs]
  cases hlayOut : s.layOut n with
  | error e => rfl
  | ok l =>
      obtain ⟨ins, outs, p, hins, houts, hp, rfl⟩ := Setup.layOut_eq_ok.mp hlayOut
      have hgates := (Netlist.bounds_of_parse hparse).2
      have hnext := Placement.next_le_wireCount hp
      have hwalk : formatStage (walk s n p) = refuse (JointCircuit.formatStage (s.walk n p)) := by
        rw [walk_eq hcount hgates hnext, formatStage_refuse]
      refine bind_eq_refuse hwalk fun w hw => ?_
      obtain ⟨hrun, hwritten⟩ := Setup.walk_eq_ok.mp (mapError_eq_ok.mp hw)
      have hroom : w.next + w.outputs ≤ maxIndex := by
        have hbudget := Walk.run_budget hrun
        have hwires := hcount.wires
        simp only [Walk.start, Walk.handedOut] at hbudget
        omega
      -- all stages succeeded, so what is left is about a compiled setup
      have hassemble := assemble_eq
        ⟨hparse, hfits, hins, houts, hp, hrun, hwritten, rfl⟩ hcount hroom
      change formatStage (assemble s n (Layout.of ⟨s.partySlots ins, outs, p⟩) w) = _
      rw [hassemble]
      rfl

end Guarded

end JointCircuit

import JointCircuit.Circuit.Evaluation
import JointCircuit.Lowering.Walk
import JointCircuit.Proofs.Lowering.References
import JointCircuit.Proofs.Sequence

/-!
# The walk follows the gates

What a netlist does to a memory, the gates emitted by the walk do to references.
`Walk.Tracks` says that the two agree at some point of the walk: every wire that
is mapped has, at its reference, the bit it has in the memory.

Every gate that is emitted writes a reference of its own.  So the bits of earlier
references never change, and a wire that is written again or is another name of
an earlier one keeps its bit.  `Walk.put` emits one gate in this way, and all
that a step of the walk does to gates and references is a few of them
(`Walk.Grows`).

`Walk.step_tracks` is the simulation of one gate, and `Walk.run_tracks` that of
a row of gates.
-/

namespace JointCircuit

namespace Walk

variable {v : WireRef → Bool} {w w' w'' : Walk} {r r' : WireRef} {b b' : Bool}

/-! ## References of a walk -/

/-- A reference was handed out. -/
def Issued (w : Walk) (r : WireRef) : Prop := r.Issued w.next w.outputs

/-- The bits on references after the gates emitted so far. -/
def bits (w : Walk) (v : WireRef → Bool) : WireRef → Bool := runRefs w.gates.toList v

theorem not_issued_freshFor (w : Walk) (toOutput : Bool) :
    ¬ w.Issued (w.freshFor toOutput).1 := by
  cases toOutput <;> exact Nat.lt_irrefl _

theorem issued_freshFor (w : Walk) (toOutput : Bool) :
    (w.freshFor toOutput).2.Issued (w.freshFor toOutput).1 := by
  cases toOutput <;> exact Nat.lt_succ_self _

theorem Issued.freshFor (h : w.Issued r) (toOutput : Bool) :
    (w.freshFor toOutput).2.Issued r := by
  cases toOutput with
  | false =>
      cases r with
      | placed k => exact Nat.lt_succ_of_lt h
      | output t => exact h
  | true =>
      cases r with
      | placed k => exact h
      | output t => exact Nat.lt_succ_of_lt h

theorem bits_emit (w : Walk) (g : LoweredGate WireRef) :
    (w.emit g).bits v = Function.update (w.bits v) g.output (g.value (w.bits v)) := by
  rw [bits, emit, Array.toList_push, runRefs_append]
  rfl

/-! ## Growth -/

/-- All references in the gates were handed out, and the zero wire is unset. -/
structure Sound (v : WireRef → Bool) (w : Walk) : Prop where
  gates : ∀ g ∈ w.gates.toList, g.Issued w.next w.outputs
  zero : ∀ r, w.zero = some r → w.Issued r ∧ w.bits v r = false

/-- A walk went on by emitting gates, of which the last gave `r` the bit `b`. -/
structure Grows (v : WireRef → Bool) (w w' : Walk) (r : WireRef) (b : Bool) : Prop where
  wires : w'.wires = w.wires
  /-- All references that were handed out still are. -/
  issued : ∀ x, w.Issued x → w'.Issued x
  bits : ∀ x, w.Issued x → w'.bits v x = w.bits v x
  sound : w'.Sound v
  result : w'.Issued r
  bit : w'.bits v r = b

theorem Grows.trans (h : Grows v w w' r b) (h' : Grows v w' w'' r' b') :
    Grows v w w'' r' b' where
  wires := h'.wires.trans h.wires
  issued x hx := h'.issued x (h.issued x hx)
  bits x hx := (h'.bits x (h.issued x hx)).trans (h.bits x hx)
  sound := h'.sound
  result := h'.result
  bit := h'.bit

/-- What an earlier step gave is still there after a later one. -/
theorem Grows.keep (h : Grows v w w' r b) (h' : Grows v w' w'' r' b') :
    w''.Issued r ∧ w''.bits v r = b :=
  ⟨h'.issued r h.result, (h'.bits r h.result).trans h.bit⟩

/-- Emit a gate that writes a reference of its own. -/
def put (w : Walk) (toOutput : Bool) (g : WireRef → LoweredGate WireRef) : WireRef × Walk :=
  ((w.freshFor toOutput).1, (w.freshFor toOutput).2.emit (g (w.freshFor toOutput).1))

theorem grows_put (hw : w.Sound v) (toOutput : Bool) {g : WireRef → LoweredGate WireRef}
    (hout : ∀ z, (g z).output = z) (hops : ∀ z, ∀ x ∈ (g z).operands, w.Issued x) :
    Grows v w (w.put toOutput g).2 (w.put toOutput g).1
      ((g (w.put toOutput g).1).value (w.bits v)) := by
  have hsame : (w.freshFor toOutput).2.gates = w.gates := by cases toOutput <;> rfl
  have hzero : (w.freshFor toOutput).2.zero = w.zero := by cases toOutput <;> rfl
  have hbits : (w.freshFor toOutput).2.bits v = w.bits v := by
    rw [Walk.bits, Walk.bits, hsame]
  have hkeep : ∀ x, w.Issued x → (w.put toOutput g).2.bits v x = w.bits v x := by
    intro x hx
    have hne : x ≠ (w.freshFor toOutput).1 :=
      fun e => not_issued_freshFor w toOutput (e ▸ hx)
    rw [put, bits_emit, hout, Function.update_of_ne hne, hbits]
  refine ⟨?_, fun x hx => hx.freshFor toOutput, hkeep, ⟨fun g' hg' => ?_, fun x hx => ?_⟩,
    issued_freshFor w toOutput, ?_⟩
  · cases toOutput <;> rfl
  · simp only [put, emit, Array.toList_push, List.mem_append, List.mem_singleton, hsame] at hg'
    rcases hg' with hg' | rfl
    · obtain ⟨hz, hxs⟩ := hw.gates g' hg'
      exact ⟨Issued.freshFor hz toOutput, fun x hx => Issued.freshFor (hxs x hx) toOutput⟩
    · refine ⟨?_, fun x hx => Issued.freshFor (hops _ x hx) toOutput⟩
      rw [hout]
      exact issued_freshFor w toOutput
  · have hx' : w.zero = some x := hzero ▸ hx
    obtain ⟨hissued, hfalse⟩ := hw.zero x hx'
    exact ⟨hissued.freshFor toOutput, (hkeep x hissued).trans hfalse⟩
  · rw [put, bits_emit, hout, Function.update_self, hbits]

/-- Handing out an inner wire that no gate writes. -/
theorem grows_fresh (hw : w.Sound v) :
    Grows v w w.fresh.2 w.fresh.1 (w.bits v w.fresh.1) where
  wires := rfl
  issued _ hx := hx.freshFor false
  bits _ _ := rfl
  sound :=
    { gates := fun g hg =>
        ⟨Issued.freshFor (hw.gates g hg).1 false,
          fun x hx => Issued.freshFor ((hw.gates g hg).2 x hx) false⟩
      zero := fun x hx => ⟨(hw.zero x hx).1.freshFor false, (hw.zero x hx).2⟩ }
  result := issued_freshFor w false
  bit := rfl

/-- Offering an unset wire as zero wire. -/
theorem grows_offerZero (hw : w.Sound v) (hr : w.Issued r) (hbit : w.bits v r = false) :
    Grows v w (w.offerZero r) r false where
  wires := rfl
  issued _ hx := hx
  bits _ _ := rfl
  sound :=
    { gates := hw.gates
      zero := fun x hx => by
        cases hz : w.zero with
        | none =>
            rw [offerZero, hz, Option.getD_none, Option.some.injEq] at hx
            exact hx ▸ ⟨hr, hbit⟩
        | some z =>
            rw [offerZero, hz, Option.getD_some, Option.some.injEq] at hx
            exact hx ▸ hw.zero z hz }
  result := hr
  bit := hbit

/-! ## The gates of a step -/

theorem grows_zeroSource (hw : w.Sound v) {inputBits : Nat} (hinput : inputBits ≤ w.next) :
    ∃ b, Grows v w (w.zeroSource inputBits).2 (w.zeroSource inputBits).1 b := by
  unfold zeroSource
  split
  · rename_i hpos
    exact ⟨_, rfl, fun _ hx => hx, fun _ _ => rfl, hw, Nat.lt_of_lt_of_le hpos hinput, rfl⟩
  · exact ⟨_, grows_fresh hw⟩

/-- The zero wire is unset, whether it was there or a gate is emitted for it. -/
theorem grows_demandZero (hw : w.Sound v) {inputBits : Nat} (hinput : inputBits ≤ w.next) :
    Grows v w (w.demandZero inputBits).2 (w.demandZero inputBits).1 false := by
  unfold demandZero
  split
  · rename_i zero hzero
    obtain ⟨hissued, hfalse⟩ := hw.zero zero hzero
    exact ⟨rfl, fun _ hx => hx, fun _ _ => rfl, hw, hissued, hfalse⟩
  · obtain ⟨b, hsource⟩ := grows_zeroSource hw hinput
    have hput := grows_put hsource.sound false
      (g := .xor (w.zeroSource inputBits).1 (w.zeroSource inputBits).1) (fun _ => rfl)
      (fun z x hx => by
        rcases List.mem_cons.mp hx with rfl | hx
        · exact hsource.result
        · exact List.mem_singleton.mp hx ▸ hsource.result)
    have hfalse : (LoweredGate.xor (w.zeroSource inputBits).1 (w.zeroSource inputBits).1
        ((w.zeroSource inputBits).2.put false
          (.xor (w.zeroSource inputBits).1 (w.zeroSource inputBits).1)).1).value
            ((w.zeroSource inputBits).2.bits v) = false := Bool.xor_self _
    rw [hfalse] at hput
    exact (hsource.trans hput).trans (grows_offerZero hput.sound hput.result hput.bit)

theorem emitBinary_or (w : Walk) (x y : WireRef) (toOutput : Bool) :
    w.emitBinary .or x y toOutput =
      let (notX, w) := w.put false (.inv x)
      let (notY, w) := w.put false (.inv y)
      let (both, w) := w.put false (.and notX notY)
      w.put toOutput (.inv both) := by
  cases toOutput <;> rfl

theorem grows_inv (hw : w.Sound v) (toOutput : Bool) {x : WireRef} (hx : w.Issued x) :
    Grows v w (w.put toOutput (.inv x)).2 (w.put toOutput (.inv x)).1 (!w.bits v x) :=
  grows_put hw toOutput (fun _ => rfl) fun _ _ hmem => List.mem_singleton.mp hmem ▸ hx

theorem grows_and (hw : w.Sound v) (toOutput : Bool) {x y : WireRef} (hx : w.Issued x)
    (hy : w.Issued y) :
    Grows v w (w.put toOutput (.and x y)).2 (w.put toOutput (.and x y)).1
      (w.bits v x && w.bits v y) :=
  grows_put hw toOutput (fun _ => rfl) fun _ _ hmem => by
    rcases List.mem_cons.mp hmem with rfl | hmem
    · exact hx
    · exact List.mem_singleton.mp hmem ▸ hy

theorem grows_xor (hw : w.Sound v) (toOutput : Bool) {x y : WireRef} (hx : w.Issued x)
    (hy : w.Issued y) :
    Grows v w (w.put toOutput (.xor x y)).2 (w.put toOutput (.xor x y)).1
      (w.bits v x ^^ w.bits v y) :=
  grows_put hw toOutput (fun _ => rfl) fun _ _ hmem => by
    rcases List.mem_cons.mp hmem with rfl | hmem
    · exact hx
    · exact List.mem_singleton.mp hmem ▸ hy

/-- A gate of two operands gives its wire the value of the gate. -/
theorem grows_emitBinary (hw : w.Sound v) (op : BinaryOp) {x y : WireRef} (toOutput : Bool)
    (hx : w.Issued x) (hy : w.Issued y) :
    Grows v w (w.emitBinary op x y toOutput).2 (w.emitBinary op x y toOutput).1
      (op.apply (w.bits v x) (w.bits v y)) := by
  cases op with
  | and => exact grows_and hw toOutput hx hy
  | xor =>
      have hxor := grows_xor hw toOutput hx hy
      simp only [emitBinary, BinaryOp.apply]
      split
      · rename_i heq
        subst heq
        rw [Bool.xor_self] at hxor ⊢
        exact hxor.trans (grows_offerZero hxor.sound hxor.result hxor.bit)
      · exact hxor
  | or =>
      have hnotX := grows_inv hw false hx
      have hnotY := grows_inv hnotX.sound false (hnotX.issued y hy)
      obtain ⟨hissuedX, hbitX⟩ := hnotX.keep hnotY
      have hboth := grows_and hnotY.sound false hissuedX hnotY.result
      have hz := grows_inv hboth.sound toOutput hboth.result
      have hall := ((hnotX.trans hnotY).trans hboth).trans hz
      rw [hboth.bit, hbitX, hnotY.bit, hnotX.bits y hy] at hall
      -- the double negation is the disjunction
      have hmorgan : ∀ a b : Bool, (!(!a && !b)) = (a || b) := by decide
      rw [hmorgan] at hall
      rw [emitBinary_or]
      exact hall

/-- A gate of one operand gives its wire the value of the gate. -/
theorem grows_emitUnary (hw : w.Sound v) {inputBits : Nat} (hinput : inputBits ≤ w.next)
    (op : UnaryOp) {x : WireRef} (toOutput : Bool) (hx : w.Issued x) :
    Grows v w (w.emitUnary inputBits op x toOutput).2 (w.emitUnary inputBits op x toOutput).1
      (op.apply (w.bits v x)) := by
  cases op with
  | not => exact grows_inv hw toOutput hx
  | copy =>
      cases toOutput with
      | false => exact ⟨rfl, fun _ h => h, fun _ _ => rfl, hw, hx, rfl⟩
      | true =>
          have hzero := grows_demandZero hw hinput
          have hxor := grows_xor hzero.sound true (hzero.issued x hx) hzero.result
          rw [hzero.bit, hzero.bits x hx, Bool.xor_false] at hxor
          exact hzero.trans hxor

/-! ## One gate -/

/-- Every mapped wire has, at its reference, the bit it has in a memory. -/
structure Tracks (v : WireRef → Bool) (w : Walk) (m : Memory) : Prop where
  sound : w.Sound v
  issued : ∀ wire r, w.wires.get? wire = some r → w.Issued r
  bit : ∀ wire r, w.wires.get? wire = some r → w.bits v r = m.read wire

theorem operand_eq_ok {wire : Nat} : w.operand wire = .ok r ↔ w.wires.get? wire = some r := by
  unfold operand
  cases w.wires.get? wire with
  | none => simp
  | some x => simp

/-- Lowering a gate gives its wire the bit the gate writes. -/
theorem Tracks.lower {m : Memory} {inputBits : Nat} {toOutput : Bool} {g : Gate}
    (hw : Tracks v w m) (hinput : inputBits ≤ w.next)
    (h : w.lower inputBits toOutput g = .ok (r, w')) : Grows v w w' r (g.value m) := by
  cases g with
  | binary op left right output =>
      obtain ⟨x, hx, h⟩ := bind_eq_ok.mp h
      obtain ⟨y, hy, h⟩ := bind_eq_ok.mp h
      rw [operand_eq_ok] at hx hy
      have hgrow := grows_emitBinary hw.sound op toOutput (hw.issued _ x hx) (hw.issued _ y hy)
      rw [Except.ok.inj h, hw.bit _ x hx, hw.bit _ y hy] at hgrow
      exact hgrow
  | unary op input output =>
      obtain ⟨x, hx, h⟩ := bind_eq_ok.mp h
      rw [operand_eq_ok] at hx
      have hgrow := grows_emitUnary hw.sound hinput op toOutput (hw.issued _ x hx)
      rw [Except.ok.inj h, hw.bit _ x hx] at hgrow
      exact hgrow

/-- What a step of the walk is: its gate is allowed here, is lowered, and its output
is mapped. -/
theorem step_eq_ok {inputBits firstOutput : Nat} {g : Gate} :
    step inputBits firstOutput w g = .ok w' ↔
      (w.sawOutput = true → firstOutput ≤ g.output) ∧
      ∃ r w₁, { w with sawOutput := decide (firstOutput ≤ g.output) }.lower inputBits
          (decide (firstOutput ≤ g.output)) g = .ok (r, w₁) ∧
        w' = { w₁ with wires := w₁.wires.set g.output r } := by
  unfold step
  by_cases hout : firstOutput ≤ g.output
  · simp only [hout, decide_true, Bool.not_true, Bool.false_and, Bool.false_eq_true, if_false,
      implies_true, true_and]
    rw [bind_eq_ok]
    constructor
    · rintro ⟨⟨r, w₁⟩, hlower, h⟩
      exact ⟨r, w₁, hlower, (Except.ok.inj h).symm⟩
    · rintro ⟨r, w₁, hlower, rfl⟩
      exact ⟨⟨r, w₁⟩, hlower, rfl⟩
  · cases hsaw : w.sawOutput with
    | true => simp [hout]
    | false =>
        simp only [hout, decide_false, Bool.not_false, Bool.true_and, Bool.false_eq_true, if_false,
          false_implies, true_and]
        rw [bind_eq_ok]
        constructor
        · rintro ⟨⟨r, w₁⟩, hlower, h⟩
          exact ⟨r, w₁, hlower, (Except.ok.inj h).symm⟩
        · rintro ⟨r, w₁, hlower, rfl⟩
          exact ⟨⟨r, w₁⟩, hlower, rfl⟩

/-- A step of the walk follows its gate. -/
theorem step_tracks {m : Memory} {inputBits firstOutput : Nat} {g : Gate} (hw : Tracks v w m)
    (hinput : inputBits ≤ w.next) (h : step inputBits firstOutput w g = .ok w') :
    Tracks v w' (g.run m) := by
  obtain ⟨_, r, w₁, hlower, rfl⟩ := step_eq_ok.mp h
  have hw₀ : Tracks v { w with sawOutput := decide (firstOutput ≤ g.output) } m :=
    ⟨⟨hw.sound.gates, hw.sound.zero⟩, hw.issued, hw.bit⟩
  have hgrow := hw₀.lower hinput hlower
  refine ⟨⟨hgrow.sound.gates, hgrow.sound.zero⟩, fun wire x hx => ?_, fun wire x hx => ?_⟩
  · rw [IndexMap.get?_set, hgrow.wires] at hx
    split at hx
    · exact Option.some.inj hx ▸ hgrow.result
    · exact hgrow.issued x (hw.issued wire x hx)
  · rw [IndexMap.get?_set, hgrow.wires] at hx
    rw [Gate.run, Memory.read_set]
    split at hx
    · rename_i hwire
      rw [if_pos hwire, ← Option.some.inj hx]
      exact hgrow.bit
    · rename_i hwire
      rw [if_neg hwire, ← hw.bit wire x hx]
      exact hgrow.bits x (hw.issued wire x hx)

theorem Grows.next_le (h : Grows v w w' r b) : w.next ≤ w'.next := by
  rcases Nat.eq_zero_or_pos w.next with hzero | hpos
  · omega
  · have hlast : w'.Issued (.placed (w.next - 1)) := h.issued _ (Nat.sub_lt hpos Nat.one_pos)
    simp only [Issued, WireRef.Issued] at hlast
    omega

/-- References that were handed out before a step still are. -/
theorem step_issued {m : Memory} {inputBits firstOutput : Nat} {g : Gate} (hw : Tracks v w m)
    (hinput : inputBits ≤ w.next) (h : step inputBits firstOutput w g = .ok w') :
    (∀ x, w.Issued x → w'.Issued x) ∧ w.next ≤ w'.next := by
  obtain ⟨_, r, w₁, hlower, rfl⟩ := step_eq_ok.mp h
  have hw₀ : Tracks v { w with sawOutput := decide (firstOutput ≤ g.output) } m :=
    ⟨⟨hw.sound.gates, hw.sound.zero⟩, hw.issued, hw.bit⟩
  have hgrow := hw₀.lower hinput hlower
  exact ⟨hgrow.issued, hgrow.next_le⟩

/-! ## A row of gates -/

theorem run_cons_eq_ok {inputBits firstOutput : Nat} {g : PlacedGate} {gs : List PlacedGate} :
    run inputBits firstOutput w (g :: gs) = .ok w' ↔
      ∃ w₁, step inputBits firstOutput w g.gate = .ok w₁ ∧
        run inputBits firstOutput w₁ gs = .ok w' := by
  rw [run]
  cases step inputBits firstOutput w g.gate with
  | error fault => simp
  | ok w₁ => simp

/-- The walk follows the gates: after both, every mapped wire has at its reference the
bit it has in the memory. -/
theorem run_tracks {inputBits firstOutput : Nat} :
    ∀ (gs : List PlacedGate) {w w' : Walk} {m : Memory}, Tracks v w m → inputBits ≤ w.next →
      run inputBits firstOutput w gs = .ok w' → Tracks v w' (runGates gs m) ∧ inputBits ≤ w'.next
  | [], _, _, _, hw, hinput, h => by
      cases h
      exact ⟨hw, hinput⟩
  | g :: gs, w, w', m, hw, hinput, h => by
      obtain ⟨w₁, hstep, hrun⟩ := run_cons_eq_ok.mp h
      exact run_tracks gs (step_tracks hw hinput hstep)
        (Nat.le_trans hinput (step_issued hw hinput hstep).2) hrun

theorem run_issued {inputBits firstOutput : Nat} {gs : List PlacedGate} {m : Memory}
    (hw : Tracks v w m) (hinput : inputBits ≤ w.next)
    (h : run inputBits firstOutput w gs = .ok w') : ∀ x, w.Issued x → w'.Issued x := by
  induction gs generalizing w m with
  | nil =>
      cases h
      exact fun _ hx => hx
  | cons g gs ih =>
      obtain ⟨w₁, hstep, hrun⟩ := run_cons_eq_ok.mp h
      obtain ⟨hissued, hnext⟩ := step_issued hw hinput hstep
      intro x hx
      exact ih (step_tracks hw hinput hstep) (Nat.le_trans hinput hnext) hrun x (hissued x hx)

end Walk

end JointCircuit

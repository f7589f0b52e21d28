import JointCircuit.Proofs.Lowering.Straight

/-!
# Where the zero wire comes from

A walk takes a zero wire at one gate and keeps it (`Walk.run_zero_stays`).  The gate is an
exclusive disjunction of two wires that are mapped to one reference, or a copy to an output
wire that finds no zero wire and has one made from the first input (`Walk.Records`).

In both cases the first gate emitted there is the exclusive disjunction of a reference with
itself, and it writes the zero wire.  So at every point of a walk such a gate has been
emitted (`Walk.Straight.run_zeroed`).  This is all that is needed to know that the wire is
unset: the bit of the operand does not matter.

A copy has a mapped operand, and without an input nothing is mapped.  This is why a zero wire
is never made from a wire that nothing writes.
-/

namespace JointCircuit.Walk

/-- A gate was emitted that writes the exclusive disjunction of a reference with itself. -/
def Zeroed (w : Walk) (r : WireRef) : Prop := ∃ x, LoweredGate.xor x x r ∈ w.gates.toList

/-- How the walk over a gate takes the reference `r` as zero wire. -/
inductive Records (inputBits firstOutput : Nat) (w w' : Walk) (r : WireRef) : Gate → Prop where
  /-- The operands are mapped to one reference, and the gate emitted for them is offered. -/
  | offered {left right output : Nat} {x : WireRef} (mappedLeft : w.wires.get? left = some x)
      (mappedRight : w.wires.get? right = some x)
      (row : w'.gates.toList = w.gates.toList ++ [.xor x x r]) :
      Records inputBits firstOutput w w' r (.binary .xor left right output)
  /-- A gate is emitted that combines the first input with itself, and then the copy. -/
  | made {input output : Nat} {x : WireRef} (copies : firstOutput ≤ output)
      (mapped : w.wires.get? input = some x) (source : 0 < inputBits)
      (row : w'.gates.toList = w.gates.toList ++
        [.xor (.placed 0) (.placed 0) r, .xor x r (.output w.outputs)]) :
      Records inputBits firstOutput w w' r (.unary .copy input output)

variable {inputBits firstOutput : Nat} {w w' : Walk} {r : WireRef}

/-- At the gate where the zero wire is taken, it is written first of all. -/
theorem Records.exists_row {g : Gate} (h : Records inputBits firstOutput w w' r g) :
    ∃ x rest, w'.gates.toList = w.gates.toList ++ LoweredGate.xor x x r :: rest := by
  cases h with
  | offered _ _ row => exact ⟨_, [], row⟩
  | made _ _ _ row => exact ⟨_, [_], row⟩

theorem Records.zeroed {g : Gate} (h : Records inputBits firstOutput w w' r g) : w'.Zeroed r := by
  obtain ⟨x, rest, hrow⟩ := h.exists_row
  exact ⟨x, hrow ▸ List.mem_append_right _ List.mem_cons_self⟩

/-! ## Acts on a walk -/

@[simp] theorem zero_put (w : Walk) (toOutput : Bool) (g : WireRef → LoweredGate WireRef) :
    (w.put toOutput g).2.zero = w.zero := by
  cases toOutput <;> rfl

/-- With an input a zero wire is made from the first one. -/
theorem zeroSource_eq (w : Walk) (hpos : 0 < inputBits) :
    w.zeroSource inputBits = (.placed 0, w) := if_pos hpos

/-- A zero wire that is needed first is made from the first input. -/
theorem demandZero_of_none (hpos : 0 < inputBits) (hnone : w.zero = none) :
    (w.demandZero inputBits).2.outputs = w.outputs ∧
      (w.demandZero inputBits).2.zero = some (w.demandZero inputBits).1 ∧
      (w.demandZero inputBits).2.gates.toList =
        w.gates.toList ++ [.xor (.placed 0) (.placed 0) (w.demandZero inputBits).1] := by
  have hmade : w.demandZero inputBits =
      ((w.put false (.xor (.placed 0) (.placed 0))).1,
        (w.put false (.xor (.placed 0) (.placed 0))).2.offerZero
          (w.put false (.xor (.placed 0) (.placed 0))).1) := by
    simp only [demandZero, hnone, zeroSource_eq w hpos]
    rfl
  rw [hmade]
  refine ⟨rfl, ?_, w.put_gates false _⟩
  simp only [offerZero, zero_put, hnone, Option.getD_none]

/-- A zero wire stays. -/
theorem Emits.zero_stays {gs : List (LoweredGate WireRef)} (h : Emits inputBits w gs w')
    (hr : w.zero = some r) : w'.zero = some r := by
  induction h with
  | refl => exact hr
  | put h toOutput output operands ih => rw [zero_put, ih]
  | offer h within ih => rw [offerZero, ih, Option.getD_some]
  | skip h empty ih => exact ih

/-! ## One gate -/

theorem emitBinary_records {op : BinaryOp} {x y : WireRef} {toOutput : Bool} (hnone : w.zero = none)
    (hr : (w.emitBinary op x y toOutput).2.zero = some r) :
    op = .xor ∧ x = y ∧
      (w.emitBinary op x y toOutput).2.gates.toList = w.gates.toList ++ [.xor x x r] := by
  cases op with
  | and =>
      have hzero : (w.emitBinary .and x y toOutput).2.zero = w.zero :=
        w.zero_put toOutput (.and x y)
      rw [hzero, hnone] at hr
      cases hr
  | or =>
      rw [emitBinary_or] at hr
      simp only [zero_put, hnone] at hr
      cases hr
  | xor =>
      have hput : (w.put toOutput (.xor x y)).2.zero = none := by rw [zero_put, hnone]
      have hxor : (w.emitBinary .xor x y toOutput).2 =
          if x = y then (w.put toOutput (.xor x y)).2.offerZero (w.put toOutput (.xor x y)).1
          else (w.put toOutput (.xor x y)).2 := rfl
      rw [hxor] at hr ⊢
      split at hr
      · rename_i heq
        subst heq
        rw [offerZero, hput, Option.getD_none, Option.some.injEq] at hr
        rw [if_pos rfl, ← hr]
        exact ⟨rfl, rfl, w.put_gates toOutput (.xor x x)⟩
      · cases hput.symm.trans hr

theorem emitUnary_records {op : UnaryOp} {x : WireRef} {toOutput : Bool} (hpos : 0 < inputBits)
    (hnone : w.zero = none) (hr : (w.emitUnary inputBits op x toOutput).2.zero = some r) :
    op = .copy ∧ toOutput = true ∧
      (w.emitUnary inputBits op x toOutput).2.gates.toList = w.gates.toList ++
        [.xor (.placed 0) (.placed 0) r, .xor x r (.output w.outputs)] := by
  cases op with
  | not =>
      have hzero : (w.emitUnary inputBits .not x toOutput).2.zero = w.zero :=
        w.zero_put toOutput (.inv x)
      rw [hzero, hnone] at hr
      cases hr
  | copy =>
      cases toOutput with
      | false => cases hnone.symm.trans hr
      | true =>
          obtain ⟨houtputs, hzero, hgates⟩ := demandZero_of_none hpos hnone
          have hput : (w.emitUnary inputBits .copy x true).2 =
            ((w.demandZero inputBits).2.put true (.xor x (w.demandZero inputBits).1)).2 := rfl
          rw [hput] at hr ⊢
          rw [zero_put, hzero, Option.some.injEq] at hr
          rw [put_gates, hgates, put_output, houtputs, hr, List.append_assoc]
          exact ⟨rfl, rfl, rfl⟩

/-- A gate at which a zero wire appears records it. -/
theorem Straight.step_records (h : w.Straight inputBits) {g : Gate}
    (hstep : Walk.step inputBits firstOutput w g = .ok w') (hnone : w.zero = none)
    (hr : w'.zero = some r) : Records inputBits firstOutput w w' r g := by
  obtain ⟨_, z, w₁, hlower, rfl⟩ := step_eq_ok.mp hstep
  cases g with
  | binary op left right output =>
      obtain ⟨x, hx, hlower⟩ := bind_eq_ok.mp hlower
      obtain ⟨y, hy, hlower⟩ := bind_eq_ok.mp hlower
      rw [operand_eq_ok] at hx hy
      obtain rfl := congrArg Prod.snd (Except.ok.inj hlower)
      obtain ⟨rfl, rfl, hrow⟩ := emitBinary_records
        (w := { w with sawOutput := decide (firstOutput ≤ output) }) hnone hr
      exact .offered hx hy hrow
  | unary op input output =>
      obtain ⟨x, hx, hlower⟩ := bind_eq_ok.mp hlower
      rw [operand_eq_ok] at hx
      obtain rfl := congrArg Prod.snd (Except.ok.inj hlower)
      have hpos := (h.wires input x hx).1
      obtain ⟨rfl, hout, hrow⟩ := emitUnary_records
        (w := { w with sawOutput := decide (firstOutput ≤ output) }) hpos hnone hr
      exact .made (of_decide_eq_true hout) hx hpos hrow

theorem step_zero_stays {g : Gate} (hstep : step inputBits firstOutput w g = .ok w')
    (hr : w.zero = some r) : w'.zero = some r := by
  obtain ⟨_, z, w₁, hlower, rfl⟩ := step_eq_ok.mp hstep
  obtain ⟨_, gs, hlowers⟩ := lower_lowers hlower
  exact hlowers.emits.zero_stays hr

/-- What a step takes or keeps as zero wire is written. -/
theorem Straight.step_zeroed (h : w.Straight inputBits) {g : Gate}
    (hstep : Walk.step inputBits firstOutput w g = .ok w')
    (hzeroed : ∀ r, w.zero = some r → w.Zeroed r) : ∀ r, w'.zero = some r → w'.Zeroed r := by
  intro r hr
  cases hold : w.zero with
  | none => exact (h.step_records hstep hold hr).zeroed
  | some z =>
      obtain rfl : z = r := Option.some.inj ((step_zero_stays hstep hold).symm.trans hr)
      obtain ⟨x, hx⟩ := hzeroed z hold
      obtain ⟨_, row, hrow, _⟩ := h.step hstep
      exact ⟨x, hrow ▸ List.mem_append_left row hx⟩

/-! ## A row of gates -/

/-- A zero wire stays to the end of a row of gates. -/
theorem run_zero_stays {gs : List PlacedGate} (hrun : run inputBits firstOutput w gs = .ok w')
    (hr : w.zero = some r) : w'.zero = some r := by
  induction gs generalizing w with
  | nil =>
      cases hrun
      exact hr
  | cons g gs ih =>
      obtain ⟨w₁, hstep, hrun⟩ := run_cons_eq_ok.mp hrun
      exact ih hrun (step_zero_stays hstep hr)

/-- A zero wire behind a row of gates is written by a gate emitted before. -/
theorem Straight.run_zeroed {gs : List PlacedGate} (h : w.Straight inputBits)
    (hrun : Walk.run inputBits firstOutput w gs = .ok w')
    (hzeroed : ∀ r, w.zero = some r → w.Zeroed r) : ∀ r, w'.zero = some r → w'.Zeroed r := by
  induction gs generalizing w with
  | nil =>
      cases hrun
      exact hzeroed
  | cons g gs ih =>
      obtain ⟨w₁, hstep, hrun⟩ := run_cons_eq_ok.mp hrun
      exact ih (h.step hstep).1 hrun (h.step_zeroed hstep hzeroed)

end JointCircuit.Walk

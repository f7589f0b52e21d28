import JointCircuit.Proofs.Lowering.Order
import JointCircuit.Proofs.Lowering.Straight

/-!
# What the walk emits, counted

Every gate has a price (`Gate.price`): a disjunction costs four gates, of which one is a
conjunction, a copy to an inner wire costs none, and any other gate costs one.  A copy to an
output wire costs one more when there is no zero wire yet.  Once there is a zero wire it
stays, so this happens once at most.

`Walk.Pays` is what a few acts on a walk add up to, and `Walk.step_pays` goes through the
gates.  There is a zero wire behind a row of gates when one of them is a copy to an output
wire or an exclusive disjunction of two wires that were mapped to one reference
(`Walk.run_zero`).  `Walk.run_size` is the count for a row of gates.
-/

namespace JointCircuit

/-! ## Prices -/

namespace Gate

/-- Decide whether a gate has an operation of two operands. -/
def isBinary (op : BinaryOp) : Gate → Bool
  | .binary op' _ _ _ => op' == op
  | .unary _ _ _ => false

/-- Decide whether a gate has an operation of one operand. -/
def isUnary (op : UnaryOp) : Gate → Bool
  | .binary _ _ _ _ => false
  | .unary op' _ _ => op' == op

/-- Decide whether a gate is a copy to an output wire. -/
def copiesOut (firstOutput : Nat) (g : Gate) : Bool :=
  g.isUnary .copy && decide (firstOutput ≤ g.output)

/-- The number of gates that are emitted for a gate when there is a zero wire. -/
def price (firstOutput : Nat) : Gate → Nat
  | .binary .or _ _ _ => 4
  | .binary _ _ _ _ => 1
  | .unary .not _ _ => 1
  | .unary .copy _ output => if firstOutput ≤ output then 1 else 0

/-- The number of conjunctions that are emitted for a gate. -/
def ands : Gate → Nat
  | .binary .xor _ _ _ => 0
  | .binary _ _ _ _ => 1
  | .unary _ _ _ => 0

theorem copiesOut_iff {firstOutput : Nat} {g : Gate} :
    g.copiesOut firstOutput = true ↔ g.isUnary .copy = true ∧ firstOutput ≤ g.output := by
  rw [copiesOut, Bool.and_eq_true, decide_eq_true_eq]

theorem copiesOut_copy (firstOutput input output : Nat) :
    copiesOut firstOutput (.unary .copy input output) = decide (firstOutput ≤ output) := rfl

/-- The price of a gate by its kind. -/
theorem price_eq (firstOutput : Nat) (g : Gate) :
    g.price firstOutput = (g.isBinary .and).toNat + (g.isBinary .xor).toNat +
      (g.isUnary .not).toNat + 4 * (g.isBinary .or).toNat + (g.copiesOut firstOutput).toNat := by
  cases g with
  | binary op left right output => cases op <;> rfl
  | unary op input output =>
      cases op with
      | not => rfl
      | copy =>
          rw [price, copiesOut_copy]
          split
          · rename_i hout
            rw [decide_eq_true hout]
            rfl
          · rename_i hout
            rw [decide_eq_false hout]
            rfl

theorem price_of_innerCopy {firstOutput : Nat} {g : Gate} (hcopy : g.isUnary .copy = true)
    (hinner : g.output < firstOutput) : g.price firstOutput = 0 := by
  cases g with
  | binary op left right output => cases hcopy
  | unary op input output =>
      obtain rfl : op = .copy := eq_of_beq hcopy
      exact if_neg (Nat.not_le.mpr hinner)

theorem ands_eq (g : Gate) : g.ands = (g.isBinary .and).toNat + (g.isBinary .or).toNat := by
  cases g with
  | binary op left right output => cases op <;> rfl
  | unary op input output => rfl

end Gate

/-- The number of gates of a row that pass a test. -/
def countGates (test : Gate → Bool) (gs : List PlacedGate) : Nat := gs.countP fun g => test g.gate

theorem countGates_cons (test : Gate → Bool) (g : PlacedGate) (gs : List PlacedGate) :
    countGates test (g :: gs) = countGates test gs + (test g.gate).toNat := by
  rw [countGates, List.countP_cons, ← countGates]
  cases test g.gate <;> rfl

/-- The price of a row of gates. -/
def priceOf (firstOutput : Nat) : List PlacedGate → Nat
  | [] => 0
  | g :: gs => g.gate.price firstOutput + priceOf firstOutput gs

/-- The price of a row of gates by the kinds of its gates. -/
theorem priceOf_eq (firstOutput : Nat) (gs : List PlacedGate) :
    priceOf firstOutput gs =
      countGates (Gate.isBinary .and) gs + countGates (Gate.isBinary .xor) gs +
        countGates (Gate.isUnary .not) gs + 4 * countGates (Gate.isBinary .or) gs +
        countGates (Gate.copiesOut firstOutput) gs := by
  induction gs with
  | nil => rfl
  | cons g gs ih =>
      simp only [priceOf, ih, Gate.price_eq, countGates_cons]
      omega

namespace Walk

variable {inputBits firstOutput : Nat} {w w' w'' : Walk}

/-! ## Acts on a walk -/

/-- The number of conjunctions emitted so far. -/
def andCount (w : Walk) : Nat := w.gates.toList.countP LoweredGate.isAnd

/-- A walk went on by emitting `count` gates, of which `ands` are conjunctions, and by
offering a zero wire or not. -/
structure Pays (w w' : Walk) (count ands : Nat) (offers : Prop) : Prop where
  size : w'.gates.size = w.gates.size + count
  andCount : w'.andCount = w.andCount + ands
  zero : w'.zero.isSome = true ↔ w.zero.isSome = true ∨ offers

theorem Pays.refl (w : Walk) : Pays w w 0 0 False := ⟨rfl, rfl, (or_false _).to_iff.symm⟩

theorem Pays.trans {count count' ands ands' : Nat} {offers offers' : Prop}
    (h : Pays w w' count ands offers) (h' : Pays w' w'' count' ands' offers') :
    Pays w w'' (count + count') (ands + ands') (offers ∨ offers') where
  size := by rw [h'.size, h.size, Nat.add_assoc]
  andCount := by rw [h'.andCount, h.andCount, Nat.add_assoc]
  zero := by rw [h'.zero, h.zero, or_assoc]

theorem Pays.congr {count count' ands ands' : Nat} {offers offers' : Prop}
    (h : Pays w w' count ands offers) (hcount : count = count') (hands : ands = ands')
    (hoffers : offers ↔ offers') : Pays w w' count' ands' offers' :=
  ⟨hcount ▸ h.size, hands ▸ h.andCount, h.zero.trans (or_congr_right hoffers)⟩

theorem pays_put (w : Walk) (toOutput : Bool) {g : WireRef → LoweredGate WireRef} {b : Bool}
    (hg : ∀ z, (g z).isAnd = b) : Pays w (w.put toOutput g).2 1 b.toNat False where
  size := by cases toOutput <;> exact Array.size_push _
  andCount := by
    rw [andCount, put_gates, List.countP_append, List.countP_singleton, hg]
    cases b <;> rfl
  zero := by cases toOutput <;> exact (or_false _).to_iff.symm

theorem pays_offerZero (w : Walk) (r : WireRef) : Pays w (w.offerZero r) 0 0 True :=
  ⟨rfl, rfl, by simp [offerZero]⟩

theorem pays_zeroSource (w : Walk) (inputBits : Nat) :
    Pays w (w.zeroSource inputBits).2 0 0 False := by
  unfold zeroSource
  split <;> exact ⟨rfl, rfl, (or_false _).to_iff.symm⟩

/-- A zero wire costs a gate when there is none yet. -/
theorem pays_demandZero (w : Walk) (inputBits : Nat) :
    Pays w (w.demandZero inputBits).2 (!w.zero.isSome).toNat 0 True := by
  unfold demandZero
  split
  · rename_i zero hzero
    exact ⟨by rw [hzero]; rfl, rfl, by simp [hzero]⟩
  · rename_i hzero
    have hput := (w.pays_zeroSource inputBits).trans
      ((w.zeroSource inputBits).2.pays_put false
        (g := .xor (w.zeroSource inputBits).1 (w.zeroSource inputBits).1) fun _ => rfl)
    rw [hzero]
    exact (hput.trans (pays_offerZero _ _)).congr rfl rfl (by simp)

/-! ## One gate -/

/-- A gate is an exclusive disjunction of two wires that are mapped to one reference. -/
def XorsEqual (w : Walk) (g : Gate) : Prop :=
  ∃ left right output, g = .binary .xor left right output ∧
    ∃ r, w.wires.get? left = some r ∧ w.wires.get? right = some r

theorem pays_emitBinary (w : Walk) (op : BinaryOp) (x y : WireRef) (toOutput : Bool)
    (left right output : Nat) :
    Pays w (w.emitBinary op x y toOutput).2 (Gate.price firstOutput (.binary op left right output))
      (Gate.ands (.binary op left right output)) (op = .xor ∧ x = y) := by
  cases op with
  | and => exact (w.pays_put toOutput (g := .and x y) fun _ => rfl).congr rfl rfl (by simp)
  | xor =>
      have hput := w.pays_put toOutput (g := .xor x y) fun _ => rfl
      simp only [emitBinary]
      split
      · rename_i heq
        exact (hput.trans (pays_offerZero _ _)).congr rfl rfl (by simp [heq])
      · rename_i hne
        exact hput.congr rfl rfl (by simp [hne])
  | or =>
      rw [emitBinary_or]
      have hnotX := w.pays_put false (g := .inv x) fun _ => rfl
      have hnotY := hnotX.trans (pays_put _ false (g := .inv y) fun _ => rfl)
      have hboth := hnotY.trans (pays_put _ false
        (g := .and (w.put false (.inv x)).1 ((w.put false (.inv x)).2.put false (.inv y)).1)
        fun _ => rfl)
      exact (hboth.trans (pays_put _ toOutput (g := .inv _) fun _ => rfl)).congr rfl rfl (by simp)

theorem pays_emitUnary (w : Walk) (inputBits : Nat) (op : UnaryOp) (x : WireRef)
    (input output : Nat) :
    Pays w (w.emitUnary inputBits op x (decide (firstOutput ≤ output))).2
      (Gate.price firstOutput (.unary op input output) +
        (Gate.copiesOut firstOutput (.unary op input output) && !w.zero.isSome).toNat)
      (Gate.ands (.unary op input output))
      (Gate.copiesOut firstOutput (.unary op input output) = true) := by
  cases op with
  | not =>
      exact (w.pays_put (decide (firstOutput ≤ output)) (g := .inv x) fun _ => rfl).congr rfl rfl
        (by simp [Gate.copiesOut, Gate.isUnary])
  | copy =>
      rw [Gate.copiesOut_copy]
      by_cases hout : firstOutput ≤ output
      · have hput := pays_put (w.demandZero inputBits).2 true
          (g := .xor x (w.demandZero inputBits).1) fun _ => rfl
        simp only [Gate.price, decide_eq_true hout, if_pos hout, Bool.true_and]
        exact ((w.pays_demandZero inputBits).trans hput).congr (Nat.add_comm ..) rfl (by simp)
      · simp only [Gate.price, decide_eq_false hout, if_neg hout, Bool.false_and]
        exact (Pays.refl w).congr rfl rfl (by simp)

/-- Lowering a gate pays its price, and one gate more for a copy to an output wire when there
is no zero wire. -/
theorem lower_pays {g : Gate} {r : WireRef}
    (h : w.lower inputBits (decide (firstOutput ≤ g.output)) g = .ok (r, w')) :
    Pays w w' (g.price firstOutput + (g.copiesOut firstOutput && !w.zero.isSome).toNat) g.ands
      (g.copiesOut firstOutput = true ∨ w.XorsEqual g) := by
  cases g with
  | binary op left right output =>
      obtain ⟨x, hx, h⟩ := bind_eq_ok.mp h
      obtain ⟨y, hy, h⟩ := bind_eq_ok.mp h
      rw [operand_eq_ok] at hx hy
      obtain rfl : (w.emitBinary op x y (decide (firstOutput ≤ output))).2 = w' :=
        congrArg Prod.snd (Except.ok.inj h)
      refine (w.pays_emitBinary op x y _ left right output).congr rfl rfl ⟨?_, ?_⟩
      · rintro ⟨rfl, rfl⟩
        exact .inr ⟨left, right, output, rfl, x, hx, hy⟩
      · rintro (hcopies | ⟨_, _, _, hg, r, hleft, hright⟩)
        · cases hcopies
        · cases hg
          exact ⟨rfl, Option.some.inj ((hx.symm.trans hleft).trans (hright.symm.trans hy))⟩
  | unary op input output =>
      obtain ⟨x, hx, h⟩ := bind_eq_ok.mp h
      obtain rfl : (w.emitUnary inputBits op x (decide (firstOutput ≤ output))).2 = w' :=
        congrArg Prod.snd (Except.ok.inj h)
      refine (w.pays_emitUnary inputBits op x input output).congr rfl rfl ⟨.inl, ?_⟩
      rintro (hcopies | ⟨_, _, _, hg, _⟩)
      · exact hcopies
      · cases hg

theorem step_pays {g : Gate} (h : step inputBits firstOutput w g = .ok w') :
    Pays w w' (g.price firstOutput + (g.copiesOut firstOutput && !w.zero.isSome).toNat) g.ands
      (g.copiesOut firstOutput = true ∨ w.XorsEqual g) := by
  obtain ⟨_, r, w₁, hlower, rfl⟩ := step_eq_ok.mp h
  have hpays := lower_pays hlower
  exact ⟨hpays.size, hpays.andCount, hpays.zero⟩

/-! ## A row of gates -/

/-- The operands of a gate that is taken are mapped. -/
theorem step_reads {g : Gate} (h : step inputBits firstOutput w g = .ok w') :
    ∀ x ∈ g.operands, ∃ r, w.wires.get? x = some r := by
  obtain ⟨_, r, w₁, hlower, _⟩ := step_eq_ok.mp h
  cases g with
  | binary op left right output =>
      obtain ⟨x, hx, hlower⟩ := bind_eq_ok.mp hlower
      obtain ⟨y, hy, _⟩ := bind_eq_ok.mp hlower
      rw [operand_eq_ok] at hx hy
      simp only [Gate.operands, List.forall_mem_cons]
      exact ⟨⟨x, hx⟩, ⟨y, hy⟩, fun _ hmem => absurd hmem List.not_mem_nil⟩
  | unary op input output =>
      obtain ⟨x, hx, _⟩ := bind_eq_ok.mp hlower
      rw [operand_eq_ok] at hx
      simp only [Gate.operands, List.forall_mem_cons]
      exact ⟨⟨x, hx⟩, fun _ hmem => absurd hmem List.not_mem_nil⟩

theorem run_append_eq_ok {gs hs : List PlacedGate} :
    run inputBits firstOutput w (gs ++ hs) = .ok w'' ↔
      ∃ w', run inputBits firstOutput w gs = .ok w' ∧
        run inputBits firstOutput w' hs = .ok w'' := by
  constructor
  · intro h
    induction gs generalizing w with
    | nil => exact ⟨w, rfl, h⟩
    | cons g gs ih =>
        obtain ⟨w₁, hstep, hrun⟩ := run_cons_eq_ok.mp h
        obtain ⟨w', hgs, hhs⟩ := ih hrun
        exact ⟨w', run_cons_eq_ok.mpr ⟨w₁, hstep, hgs⟩, hhs⟩
  · rintro ⟨w', hgs, hhs⟩
    rw [run_append hgs, hhs]

theorem run_andCount {gs : List PlacedGate} (h : run inputBits firstOutput w gs = .ok w') :
    w'.andCount = w.andCount +
      (countGates (Gate.isBinary .and) gs + countGates (Gate.isBinary .or) gs) := by
  induction gs generalizing w with
  | nil =>
      cases h
      rfl
  | cons g gs ih =>
      obtain ⟨w₁, hstep, hrun⟩ := run_cons_eq_ok.mp h
      rw [ih hrun, (step_pays hstep).andCount, Gate.ands_eq, countGates_cons, countGates_cons]
      omega

/-- Walking over a row of gates one comes to a gate, in a state of the walk with which a
property holds. -/
def Meets (inputBits firstOutput : Nat) (P : Walk → Gate → Prop) (w : Walk)
    (gs : List PlacedGate) : Prop :=
  ∃ before g after w', gs = before ++ g :: after ∧ run inputBits firstOutput w before = .ok w' ∧
    P w' g.gate

variable {P : Walk → Gate → Prop}

theorem not_meets_nil : ¬ Meets inputBits firstOutput P w [] := by
  rintro ⟨before, g, after, w', hsplit, _⟩
  simp at hsplit

theorem meets_cons {g : PlacedGate} {gs : List PlacedGate}
    (h : step inputBits firstOutput w g.gate = .ok w') :
    Meets inputBits firstOutput P w (g :: gs) ↔
      P w g.gate ∨ Meets inputBits firstOutput P w' gs := by
  constructor
  · rintro ⟨before, d, after, w₁, hsplit, hrun, hd⟩
    cases before with
    | nil =>
        obtain ⟨rfl, _⟩ := List.cons.inj hsplit
        cases hrun
        exact .inl hd
    | cons b before =>
        obtain ⟨rfl, hrest⟩ := List.cons.inj hsplit
        obtain ⟨w₂, hstep, hrun⟩ := run_cons_eq_ok.mp hrun
        obtain rfl := Except.ok.inj (h.symm.trans hstep)
        exact .inr ⟨before, d, after, w₁, hrest, hrun, hd⟩
  · rintro (hg | ⟨before, d, after, w₁, rfl, hrun, hd⟩)
    · exact ⟨[], g, gs, w, rfl, rfl, hg⟩
    · exact ⟨g :: before, d, after, w₁, rfl, run_cons_eq_ok.mpr ⟨w', h, hrun⟩, hd⟩

/-- A gate offers a zero wire. -/
def Offers (firstOutput : Nat) (w : Walk) (g : Gate) : Prop :=
  g.copiesOut firstOutput = true ∨ w.XorsEqual g

/-- A gate is a copy to an output wire, and there is no zero wire. -/
def Asks (firstOutput : Nat) (w : Walk) (g : Gate) : Prop :=
  (g.copiesOut firstOutput && !w.zero.isSome) = true

/-- There is a zero wire behind a row of gates when there was one or a gate offered one. -/
theorem run_zero {gs : List PlacedGate} (h : run inputBits firstOutput w gs = .ok w') :
    w'.zero.isSome = true ↔
      w.zero.isSome = true ∨ Meets inputBits firstOutput (Offers firstOutput) w gs := by
  induction gs generalizing w with
  | nil =>
      cases h
      exact (or_iff_left not_meets_nil).symm
  | cons g gs ih =>
      obtain ⟨w₁, hstep, hrun⟩ := run_cons_eq_ok.mp h
      rw [ih hrun, (step_pays hstep).zero, meets_cons hstep, or_assoc]
      rfl

/-- Once there is a zero wire no gate asks for one. -/
theorem not_meets_asks (h : w.zero.isSome = true) (gs : List PlacedGate) :
    ¬ Meets inputBits firstOutput (Asks firstOutput) w gs := by
  rintro ⟨before, g, after, w', _, hrun, hasks⟩
  rw [Asks, (run_zero hrun).mpr (.inl h), Bool.not_true, Bool.and_false] at hasks
  cases hasks

/-- A row of gates pays the price of its gates, and one gate more when one of them asks for a
zero wire. -/
theorem run_size {gs : List PlacedGate} (h : run inputBits firstOutput w gs = .ok w') :
    ∃ z, w'.gates.size = w.gates.size + priceOf firstOutput gs + z ∧
      (Meets inputBits firstOutput (Asks firstOutput) w gs ∧ z = 1 ∨
        ¬ Meets inputBits firstOutput (Asks firstOutput) w gs ∧ z = 0) := by
  induction gs generalizing w with
  | nil =>
      cases h
      exact ⟨0, rfl, .inr ⟨not_meets_nil, rfl⟩⟩
  | cons g gs ih =>
      obtain ⟨w₁, hstep, hrun⟩ := run_cons_eq_ok.mp h
      have hpays := step_pays hstep
      obtain ⟨z, hsize, hz⟩ := ih hrun
      rw [hpays.size] at hsize
      rw [meets_cons hstep, priceOf, Asks]
      cases hasks : g.gate.copiesOut firstOutput && !w.zero.isSome with
      | true =>
          -- the copy offers the zero wire made for it, so no gate behind it asks
          have hzero : w₁.zero.isSome = true :=
            hpays.zero.mpr (.inr (.inl (Bool.and_eq_true_iff.mp hasks).1))
          obtain ⟨_, rfl⟩ := hz.resolve_left fun hz => not_meets_asks hzero gs hz.1
          rw [hasks, Bool.toNat_true] at hsize
          exact ⟨1, by omega, .inl ⟨.inl rfl, rfl⟩⟩
      | false =>
          rw [hasks, Bool.toNat_false] at hsize
          refine ⟨z, by omega, ?_⟩
          simpa only [Bool.false_eq_true, false_or] using hz

/-- What was emitted for a gate of a row. -/
theorem getElem?_emitted {before after : List PlacedGate} {g : PlacedGate}
    (hbefore : run inputBits firstOutput w before = .ok w')
    (hstep : step inputBits firstOutput w' g.gate = .ok w'') :
    (emitted inputBits firstOutput w (before ++ g :: after))[before.length]? =
      some (w''.gates.toList.drop w'.gates.size) := by
  induction before generalizing w with
  | nil =>
      cases hbefore
      simp only [List.nil_append, emitted, hstep]
      rfl
  | cons b before ih =>
      obtain ⟨w₁, hb, hrun⟩ := run_cons_eq_ok.mp hbefore
      simp only [List.cons_append, emitted, hb, List.length_cons, List.getElem?_cons_succ]
      exact ih hrun

end Walk

end JointCircuit

import JointCircuit.Proofs.Lowering.Straight

/-!
# Wires with one origin

A copy to an inner wire gives its output the reference of its operand.  Which wires have one
reference can be told from the gates alone: `Origins` follows for every wire the input wire or
the gate from which its bit comes, through all such copies.  Every other gate is an origin of
its own.

A walk agrees with the origins of the gates behind it: two wires that are mapped have one
reference when they have one origin (`Walk.Aliases`).  The step needs that a gate which is an
origin gives a reference nobody had before (`Walk.lower_fresh`).
-/

namespace JointCircuit

/-- Where the bit on a wire comes from. -/
inductive Origin where
  | input (wire : Nat)
  /-- A gate, by its place in the row. -/
  | gate (place : Nat)
deriving DecidableEq

/-- The origins of all wires behind a number of gates. -/
structure Origins where
  of : Nat → Origin
  count : Nat

namespace Origins

/-- Before the first gate every wire is its own origin. -/
def start : Origins := ⟨.input, 0⟩

/-- The origin of the wire that a gate writes. -/
def written (firstOutput : Nat) (o : Origins) : Gate → Origin
  | .unary .copy input output => if firstOutput ≤ output then .gate o.count else o.of input
  | _ => .gate o.count

/-- The origins behind one more gate. -/
def step (firstOutput : Nat) (o : Origins) (g : Gate) : Origins where
  of wire := if wire = g.output then o.written firstOutput g else o.of wire
  count := o.count + 1

/-- The origins behind a row of gates. -/
def run (firstOutput : Nat) (o : Origins) (gs : List PlacedGate) : Origins :=
  gs.foldl (fun o g => o.step firstOutput g.gate) o

end Origins

namespace Walk

variable {inputBits firstOutput : Nat} {w w' : Walk} {r : WireRef} {o : Origins}

/-! ## References of their own -/

theorem emitBinary_fresh (w : Walk) (op : BinaryOp) (x y : WireRef) (toOutput : Bool) :
    ¬ w.Issued (w.emitBinary op x y toOutput).1 := by
  cases op with
  | and => exact w.not_issued_freshFor toOutput
  | xor => exact w.not_issued_freshFor toOutput
  | or =>
      intro hissued
      have hlater := ((hissued.freshFor false).freshFor false).freshFor false
      exact not_issued_freshFor _ toOutput hlater

theorem demandZero_fresh (w : Walk) (inputBits : Nat) (g : WireRef → LoweredGate WireRef) :
    ¬ w.Issued ((w.demandZero inputBits).2.put true g).1 := by
  obtain ⟨_, _, _, houtputs⟩ := w.emits_demandZero inputBits
  exact Nat.not_lt.mpr (Nat.le_of_eq houtputs.symm)

/-- A gate that is an origin gives a reference of its own, and a copy to an inner wire the one
of its operand. -/
theorem lower_fresh {g : Gate}
    (h : w.lower inputBits (decide (firstOutput ≤ g.output)) g = .ok (r, w')) (o : Origins) :
    ¬ w.Issued r ∧ o.written firstOutput g = .gate o.count ∨
      ∃ input, w.wires.get? input = some r ∧ o.written firstOutput g = o.of input := by
  cases g with
  | binary op left right output =>
      obtain ⟨x, hx, h⟩ := bind_eq_ok.mp h
      obtain ⟨y, hy, h⟩ := bind_eq_ok.mp h
      obtain rfl : (w.emitBinary op x y (decide (firstOutput ≤ output))).1 = r :=
        congrArg Prod.fst (Except.ok.inj h)
      exact .inl ⟨w.emitBinary_fresh op x y _, rfl⟩
  | unary op input output =>
      obtain ⟨x, hx, h⟩ := bind_eq_ok.mp h
      rw [operand_eq_ok] at hx
      obtain rfl : (w.emitUnary inputBits op x (decide (firstOutput ≤ output))).1 = r :=
        congrArg Prod.fst (Except.ok.inj h)
      cases op with
      | not => exact .inl ⟨w.not_issued_freshFor _, rfl⟩
      | copy =>
          by_cases hout : firstOutput ≤ output
          · rw [decide_eq_true hout]
            exact .inl ⟨w.demandZero_fresh inputBits _, if_pos hout⟩
          · rw [decide_eq_false hout]
            exact .inr ⟨input, hx, if_neg hout⟩

/-! ## Origins of a walk -/

/-- A walk agrees with the origins of the gates behind it. -/
structure Aliases (w : Walk) (o : Origins) : Prop where
  issued : ∀ wire r, w.wires.get? wire = some r → w.Issued r
  /-- An origin of a mapped wire is none of the gates to come. -/
  known : ∀ wire r, w.wires.get? wire = some r → ∀ place, o.of wire = .gate place → place < o.count
  same : ∀ a b x y, w.wires.get? a = some x → w.wires.get? b = some y → (x = y ↔ o.of a = o.of b)

/-- A walk still agrees with the origins when the wire mapped next and its origin are new, or
those of one wire. -/
theorem Aliases.set (h : w.Aliases o) {output : Nat} {d : Origin}
    (hissued : ∀ x, w.Issued x → w'.Issued x) (hr : w'.Issued r)
    (hget : ∀ wire, w'.wires.get? wire = if wire = output then some r else w.wires.get? wire)
    (hknown : ∀ place, d = .gate place → place ≤ o.count)
    (hsame : ∀ wire x, w.wires.get? wire = some x → (r = x ↔ d = o.of wire)) :
    w'.Aliases ⟨fun wire => if wire = output then d else o.of wire, o.count + 1⟩ := by
  refine ⟨fun wire x hx => ?_, fun wire x hx place hplace => ?_, fun a b x y hx hy => ?_⟩
  · rw [hget] at hx
    split at hx
    · exact Option.some.inj hx ▸ hr
    · exact hissued x (h.issued wire x hx)
  · rw [hget] at hx
    by_cases hwire : wire = output
    · simp only [if_pos hwire] at hplace
      exact Nat.lt_succ_of_le (hknown place hplace)
    · simp only [if_neg hwire] at hx hplace
      exact Nat.lt_succ_of_lt (h.known wire x hx place hplace)
  · rw [hget] at hx hy
    by_cases ha : a = output <;> by_cases hb : b = output
    · simp only [if_pos ha, if_pos hb, Option.some.injEq] at hx hy ⊢
      exact iff_of_true (hx.symm.trans hy) trivial
    · simp only [if_pos ha, if_neg hb, Option.some.injEq] at hx hy ⊢
      exact hx ▸ hsame b y hy
    · simp only [if_neg ha, if_pos hb, Option.some.injEq] at hx hy ⊢
      rw [eq_comm, ← hy, hsame a x hx, eq_comm]
    · simp only [if_neg ha, if_neg hb] at hx hy ⊢
      exact h.same a b x y hx hy

/-- A step agrees with the origins. -/
theorem Aliases.step {v : WireRef → Bool} {m : Memory} (h : w.Aliases o) (hw : Tracks v w m)
    (hinput : inputBits ≤ w.next) {g : Gate}
    (hstep : Walk.step inputBits firstOutput w g = .ok w') :
    w'.Aliases (o.step firstOutput g) := by
  obtain ⟨_, r, w₁, hlower, rfl⟩ := step_eq_ok.mp hstep
  have hw₀ : Tracks v { w with sawOutput := decide (firstOutput ≤ g.output) } m :=
    ⟨⟨hw.sound.gates, hw.sound.zero⟩, hw.issued, hw.bit⟩
  have hgrow := hw₀.lower hinput hlower
  have hget : ∀ wire, (w₁.wires.set g.output r).get? wire =
      if wire = g.output then some r else w.wires.get? wire := by
    intro wire
    rw [IndexMap.get?_set, hgrow.wires]
  rcases lower_fresh hlower o with ⟨hfresh, hwritten⟩ | ⟨input, hx, hwritten⟩
  · refine h.set hgrow.issued hgrow.result hget ?_ ?_
    · intro place hplace
      rw [hwritten] at hplace
      exact Nat.le_of_eq (Origin.gate.inj hplace).symm
    · intro wire x hx
      refine iff_of_false (fun heq => hfresh (heq ▸ h.issued wire x hx)) fun heq => ?_
      rw [hwritten] at heq
      exact Nat.lt_irrefl _ (h.known wire x hx o.count heq.symm)
  · refine h.set hgrow.issued hgrow.result hget ?_ ?_
    · intro place hplace
      rw [hwritten] at hplace
      exact Nat.le_of_lt (h.known input r hx place hplace)
    · intro wire x hx'
      rw [hwritten]
      exact h.same input wire r x hx hx'

/-- A row of gates agrees with the origins. -/
theorem Aliases.run {v : WireRef → Bool} {m : Memory} {gs : List PlacedGate} (h : w.Aliases o)
    (hw : Tracks v w m) (hinput : inputBits ≤ w.next)
    (hrun : Walk.run inputBits firstOutput w gs = .ok w') : w'.Aliases (o.run firstOutput gs) := by
  induction gs generalizing w o m with
  | nil =>
      cases hrun
      exact h
  | cons g gs ih =>
      obtain ⟨w₁, hstep, hrun⟩ := run_cons_eq_ok.mp hrun
      exact ih (h.step hw hinput hstep) (step_tracks hw hinput hstep)
        (Nat.le_trans hinput (step_issued hw hinput hstep).2) hrun

end Walk

end JointCircuit

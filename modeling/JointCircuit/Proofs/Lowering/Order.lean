import JointCircuit.Proofs.Lowering.Mapping

/-!
# Which rows of gates are walked

A gate can follow a row of gates when it reads only wires of inputs and wires that
a gate of the row wrote, and writes an inner wire only while none of them wrote an
output wire (`Gate.Follows`).  When it cannot, it breaks one of the two rules, the
order first and then the operands in the order they are read (`Gate.Breaks`).

What a walk knows about the row behind it is which wires are mapped, whether an
output wire was written and how many were (`Walk.Knows`).  So a walk over a row of
gates succeeds when every gate can follow those before it
(`Walk.Knows.run_isOk_iff`), and otherwise it ends at the first gate that cannot
(`Walk.Knows.run_breaks`).
-/

namespace JointCircuit

/-- A wire belongs to an input or was written by a gate of a row. -/
def Readable (input : Nat → Prop) (done : List PlacedGate) (wire : Nat) : Prop :=
  input wire ∨ Writes done wire

/-- A gate can follow a row of gates. -/
structure Gate.Follows (input : Nat → Prop) (firstOutput : Nat) (done : List PlacedGate)
    (g : Gate) : Prop where
  /-- No output wire was written before an inner one. -/
  order : g.output < firstOutput → ∀ d ∈ done, d.gate.output < firstOutput
  reads : ∀ x ∈ g.operands, Readable input done x

/-- Why a gate cannot follow a row of gates. -/
inductive Gate.Breaks (input : Nat → Prop) (firstOutput : Nat) (done : List PlacedGate)
    (g : Gate) : CircuitFault → Prop where
  | order (inner : g.output < firstOutput) (late : ∃ d ∈ done, firstOutput ≤ d.gate.output) :
      Breaks input firstOutput done g (.innerAfterOutput g.output)
  /-- It reads a wire too early, and the operands before it can be read. -/
  | reads (order : g.output < firstOutput → ∀ d ∈ done, d.gate.output < firstOutput)
      {before after : List Nat} {x : Nat} (split : g.operands = before ++ x :: after)
      (readable : ∀ y ∈ before, Readable input done y) (unread : ¬ Readable input done x) :
      Breaks input firstOutput done g (.readBeforeWritten x)

/-- Every gate of a row can follow those before it. -/
def Allowed (input : Nat → Prop) (firstOutput : Nat) (gs : List PlacedGate) : Prop :=
  ∀ before g after, gs = before ++ g :: after → g.gate.Follows input firstOutput before

variable {input : Nat → Prop} {firstOutput inputBits : Nat} {done : List PlacedGate}

theorem writes_append {gs hs : List PlacedGate} {wire : Nat} :
    Writes (gs ++ hs) wire ↔ Writes gs wire ∨ Writes hs wire := by
  simp [Writes, or_and_right, exists_or]

/-- A gate that cannot follow breaks a rule, and one that can follow breaks none. -/
theorem Gate.not_follows_iff {g : Gate} :
    ¬ g.Follows input firstOutput done ↔ ∃ fault, g.Breaks input firstOutput done fault := by
  constructor
  · intro h
    by_cases horder : g.output < firstOutput → ∀ d ∈ done, d.gate.output < firstOutput
    · have hreads : ¬ ∀ x ∈ g.operands, Readable input done x := fun hreads => h ⟨horder, hreads⟩
      obtain ⟨before, x, after, hsplit, hbefore, hx⟩ := exists_first_not hreads
      exact ⟨_, .reads horder hsplit hbefore hx⟩
    · simp only [not_forall, Nat.not_lt, exists_prop] at horder
      exact ⟨_, .order horder.1 horder.2⟩
  · rintro ⟨fault, hbreaks⟩ h
    cases hbreaks with
    | order inner late =>
        obtain ⟨d, hd, hle⟩ := late
        exact Nat.not_lt.mpr hle (h.order inner d hd)
    | @reads order before after x split readable unread =>
        exact unread (h.reads x (by simp [split]))

namespace Walk

/-! ## One gate -/

/-- A gate is lowered when all its operands are mapped. -/
theorem lower_isOk (inputBits : Nat) (toOutput : Bool) {w : Walk} {g : Gate}
    (h : ∀ x ∈ g.operands, ∃ r, w.wires.get? x = some r) :
    ∃ r w', w.lower inputBits toOutput g = .ok (r, w') := by
  cases g with
  | binary op left right output =>
      obtain ⟨x, hx⟩ := h left (by simp [Gate.operands])
      obtain ⟨y, hy⟩ := h right (by simp [Gate.operands])
      rw [← operand_eq_ok] at hx hy
      refine ⟨(w.emitBinary op x y toOutput).1, (w.emitBinary op x y toOutput).2, ?_⟩
      rw [lower, hx, ok_bind, hy, ok_bind]
  | unary op input output =>
      obtain ⟨x, hx⟩ := h input (by simp [Gate.operands])
      rw [← operand_eq_ok] at hx
      refine ⟨(w.emitUnary inputBits op x toOutput).1, (w.emitUnary inputBits op x toOutput).2, ?_⟩
      rw [lower, hx, ok_bind]

theorem operand_eq_error {w : Walk} {wire : Nat} (h : w.wires.get? wire = none) :
    w.operand wire = .error (.readBeforeWritten wire) := by
  rw [operand, h]

/-- The first operand that is not mapped is the fault of a gate. -/
theorem lower_eq_error (inputBits : Nat) (toOutput : Bool) {w : Walk} {g : Gate}
    {before after : List Nat} {x : Nat} (hsplit : g.operands = before ++ x :: after)
    (hbefore : ∀ y ∈ before, ∃ r, w.wires.get? y = some r) (hx : w.wires.get? x = none) :
    w.lower inputBits toOutput g = .error (.readBeforeWritten x) := by
  have hfault := operand_eq_error hx
  cases g with
  | binary op left right output =>
      simp only [Gate.operands] at hsplit
      cases before with
      | nil =>
          obtain ⟨rfl, _⟩ := List.cons.inj hsplit
          rw [lower, hfault, error_bind]
      | cons y before =>
          simp only [List.cons_append, List.cons.injEq] at hsplit
          obtain ⟨rfl, hsecond⟩ := hsplit
          obtain ⟨r, hr⟩ := hbefore left List.mem_cons_self
          cases before with
          | nil =>
              obtain ⟨rfl, _⟩ := List.cons.inj hsecond
              rw [lower, operand_eq_ok.mpr hr, ok_bind, hfault, error_bind]
          | cons z before => simp at hsecond
  | unary op input output =>
      simp only [Gate.operands] at hsplit
      cases before with
      | nil =>
          obtain ⟨rfl, _⟩ := List.cons.inj hsplit
          rw [lower, hfault, error_bind]
      | cons y before => simp at hsplit

/-! ## What a walk knows -/

/-- What a walk knows about the row of gates behind it. -/
structure Knows (w : Walk) (input : Nat → Prop) (firstOutput : Nat) (done : List PlacedGate) :
    Prop where
  mapped : ∀ wire, (∃ r, w.wires.get? wire = some r) ↔ Readable input done wire
  saw : w.sawOutput = true ↔ ∃ d ∈ done, firstOutput ≤ d.gate.output
  count : w.outputs = done.countP fun d => firstOutput ≤ d.gate.output

variable {w w' : Walk}

theorem Knows.unmapped (h : w.Knows input firstOutput done) {wire : Nat}
    (hwire : ¬ Readable input done wire) : w.wires.get? wire = none := by
  rw [← h.mapped] at hwire
  cases hget : w.wires.get? wire with
  | none => rfl
  | some r => exact absurd ⟨r, hget⟩ hwire

/-- A gate that can follow is taken. -/
theorem Knows.step_isOk (h : w.Knows input firstOutput done) (inputBits : Nat) {g : Gate}
    (hg : g.Follows input firstOutput done) : ∃ w', step inputBits firstOutput w g = .ok w' := by
  have hsaw : w.sawOutput = true → firstOutput ≤ g.output := by
    intro hsaw
    obtain ⟨d, hd, hle⟩ := h.saw.mp hsaw
    exact Nat.not_lt.mp fun hlt => Nat.not_lt.mpr hle (hg.order hlt d hd)
  have hoperands : ∀ x ∈ g.operands, ∃ r, w.wires.get? x = some r :=
    fun x hx => (h.mapped x).mpr (hg.reads x hx)
  obtain ⟨r, w₁, hlower⟩ := lower_isOk inputBits (decide (firstOutput ≤ g.output))
    (w := { w with sawOutput := decide (firstOutput ≤ g.output) }) hoperands
  exact ⟨_, step_eq_ok.mpr ⟨hsaw, r, w₁, hlower, rfl⟩⟩

/-- A rule that a gate breaks is the fault at it. -/
theorem Knows.step_breaks (h : w.Knows input firstOutput done) {g : Gate} {fault : CircuitFault}
    (hg : g.Breaks input firstOutput done fault) :
    step inputBits firstOutput w g = .error fault := by
  cases hg with
  | order inner late =>
      rw [step, h.saw.mpr late]
      simp [Nat.not_le.mpr inner]
  | reads order split readable unread =>
      have hlate : (!decide (firstOutput ≤ g.output) && w.sawOutput) = false := by
        rcases Nat.lt_or_ge g.output firstOutput with hlt | hge
        · have hnone : w.sawOutput = false := by
            rw [← Bool.not_eq_true, h.saw]
            rintro ⟨d, hd, hle⟩
            exact Nat.not_lt.mpr hle (order hlt d hd)
          rw [hnone, Bool.and_false]
        · rw [decide_eq_true hge, Bool.not_true, Bool.false_and]
      have hfault := lower_eq_error inputBits (decide (firstOutput ≤ g.output))
        (w := { w with sawOutput := decide (firstOutput ≤ g.output) }) split
        (fun y hy => (h.mapped y).mpr (readable y hy)) (h.unmapped unread)
      simp only [step, hlate, Bool.false_eq_true, if_false, hfault, error_bind]

/-- Only a gate that can follow is taken. -/
theorem Knows.follows (h : w.Knows input firstOutput done) {g : Gate}
    (hstep : step inputBits firstOutput w g = .ok w') : g.Follows input firstOutput done := by
  by_contra hnot
  obtain ⟨fault, hbreaks⟩ := Gate.not_follows_iff.mp hnot
  rw [h.step_breaks hbreaks] at hstep
  cases hstep

/-- After a step the walk knows its gate too. -/
theorem Knows.step (h : w.Knows input firstOutput done) {g : PlacedGate}
    (hstep : step inputBits firstOutput w g.gate = .ok w') :
    w'.Knows input firstOutput (done ++ [g]) := by
  have hfollows := h.follows hstep
  obtain ⟨r, hget, _⟩ := step_get? hstep
  obtain ⟨_, _, w₁, hlower, rfl⟩ := step_eq_ok.mp hstep
  obtain ⟨_, row, hlowers⟩ := lower_lowers hlower
  obtain ⟨_, _, hsaw⟩ := hlowers.emits.frame
  refine ⟨?_, ?_, ?_⟩
  · intro wire
    have hold := h.mapped wire
    rw [hget, Readable, writes_append, ← or_assoc, ← Readable, ← hold]
    by_cases hwire : wire = g.gate.output
    · simp [hwire, Writes]
    · simp [hwire, Writes, Ne.symm hwire]
  · simp only [hsaw, decide_eq_true_eq, List.mem_append, List.mem_singleton, or_and_right,
      exists_or, exists_eq_left]
    constructor
    · intro hle
      exact .inr hle
    · rintro (⟨d, hd, hle⟩ | hle)
      · exact Nat.not_lt.mp fun hlt => Nat.not_lt.mpr hle (hfollows.order hlt d hd)
      · exact hle
  · have hcount := h.count
    rw [List.countP_append, List.countP_singleton, ← hcount]
    rcases Nat.lt_or_ge g.gate.output firstOutput with hlt | hge
    · rw [if_neg (by simpa using hlt)]
      exact hlowers.inner (decide_eq_false (Nat.not_le.mpr hlt))
    · rw [if_pos (decide_eq_true hge)]
      exact (hlowers.last (decide_eq_true hge)).1

/-! ## A row of gates -/

theorem run_append {gs hs : List PlacedGate} (h : run inputBits firstOutput w gs = .ok w') :
    run inputBits firstOutput w (gs ++ hs) = run inputBits firstOutput w' hs := by
  induction gs generalizing w with
  | nil =>
      cases h
      rfl
  | cons g gs ih =>
      obtain ⟨w₁, hstep, hrun⟩ := run_cons_eq_ok.mp h
      rw [List.cons_append, run, hstep]
      exact ih hrun

/-- After a row of gates the walk knows all of them. -/
theorem Knows.run {gs : List PlacedGate} (h : w.Knows input firstOutput done)
    (hrun : Walk.run inputBits firstOutput w gs = .ok w') :
    w'.Knows input firstOutput (done ++ gs) := by
  induction gs generalizing w done with
  | nil =>
      cases hrun
      rwa [List.append_nil]
  | cons g gs ih =>
      obtain ⟨w₁, hstep, hrun⟩ := run_cons_eq_ok.mp hrun
      have hknows := ih (h.step hstep) hrun
      rwa [List.append_assoc] at hknows

/-- A row of gates is taken when each of them can follow those before it. -/
theorem Knows.run_isOk_iff (h : w.Knows input firstOutput done) (inputBits : Nat)
    {gs : List PlacedGate} :
    (∃ w', Walk.run inputBits firstOutput w gs = .ok w') ↔
      ∀ before g after, gs = before ++ g :: after →
        g.gate.Follows input firstOutput (done ++ before) := by
  induction gs generalizing w done with
  | nil =>
      constructor
      · intro _ before g after hsplit
        simp at hsplit
      · intro _
        exact ⟨w, rfl⟩
  | cons g gs ih =>
      constructor
      · rintro ⟨w', hrun⟩ before d after hsplit
        obtain ⟨w₁, hstep, hrun⟩ := run_cons_eq_ok.mp hrun
        cases before with
        | nil =>
            obtain ⟨rfl, _⟩ := List.cons.inj hsplit
            rw [List.append_nil]
            exact h.follows hstep
        | cons b before =>
            simp only [List.cons_append, List.cons.injEq] at hsplit
            obtain ⟨rfl, hrest⟩ := hsplit
            have hlater := (ih (h.step hstep)).mp ⟨w', hrun⟩ before d after hrest
            rwa [List.append_assoc] at hlater
      · intro hall
        have hfirst := hall [] g gs rfl
        rw [List.append_nil] at hfirst
        obtain ⟨w₁, hstep⟩ := h.step_isOk inputBits hfirst
        have hrest : ∀ before d after, gs = before ++ d :: after →
            d.gate.Follows input firstOutput (done ++ [g] ++ before) := by
          intro before d after hsplit
          have hlater := hall (g :: before) d after (by rw [hsplit, List.cons_append])
          rwa [List.append_cons] at hlater
        obtain ⟨w', hrun⟩ := (ih (h.step hstep)).mpr hrest
        exact ⟨w', run_cons_eq_ok.mpr ⟨w₁, hstep, hrun⟩⟩

/-- A row of gates ends at the first one that cannot follow, with the rule it breaks. -/
theorem Knows.run_breaks (h : w.Knows input firstOutput []) (inputBits : Nat)
    {before : List PlacedGate} {g : PlacedGate} {fault : CircuitFault}
    (hbefore : Allowed input firstOutput before)
    (hg : g.gate.Breaks input firstOutput before fault) (after : List PlacedGate) :
    Walk.run inputBits firstOutput w (before ++ g :: after) = .error ⟨g.line, fault⟩ := by
  obtain ⟨w₁, hrun⟩ := (h.run_isOk_iff inputBits).mpr hbefore
  have hfault : Walk.step inputBits firstOutput w₁ g.gate = .error fault :=
    (h.run hrun).step_breaks hg
  rw [run_append hrun, Walk.run, hfault]

end Walk

end JointCircuit

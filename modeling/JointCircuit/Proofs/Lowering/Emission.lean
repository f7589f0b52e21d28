import JointCircuit.Proofs.Lowering.Simulation

/-!
# What the walk emits

Taking a gate changes a walk only by a few acts (`Walk.Emits`): it emits gates that
write references of their own, one after another, and may take a wire as zero wire.
An emitted gate reads references that were at hand before, which are those of mapped
wires, the zero wire and the first input, or references written by the gates emitted
just before it.  Without an input the zero wire is made from a wire that nothing
writes, and then nothing is said about what gates read.

`Walk.lower_lowers` is the one place where the gates are gone through.  It also says
that a gate which writes an output wire hands out one ticket, and that the last gate
emitted for it writes that ticket.
-/

namespace JointCircuit

/-- The place of an inner wire. -/
def WireRef.inner? : WireRef → Option Nat
  | .placed wire => some wire
  | .output _ => none

/-- The ticket of an output wire. -/
def WireRef.ticket? : WireRef → Option Nat
  | .placed _ => none
  | .output ticket => some ticket

/-- The inner wires written by a row of gates, in order. -/
def innerWritten (gs : List (LoweredGate WireRef)) : List Nat :=
  gs.filterMap fun g => g.output.inner?

/-- The tickets written by a row of gates, in order. -/
def ticketsWritten (gs : List (LoweredGate WireRef)) : List Nat :=
  gs.filterMap fun g => g.output.ticket?

theorem innerWritten_append (gs hs : List (LoweredGate WireRef)) :
    innerWritten (gs ++ hs) = innerWritten gs ++ innerWritten hs :=
  List.filterMap_append

theorem ticketsWritten_append (gs hs : List (LoweredGate WireRef)) :
    ticketsWritten (gs ++ hs) = ticketsWritten gs ++ ticketsWritten hs :=
  List.filterMap_append

namespace Walk

/-! ## Acts on a walk -/

/-- A reference was at hand, or a gate of a row writes it. -/
def Within (w : Walk) (gs : List (LoweredGate WireRef)) (r : WireRef) : Prop :=
  ((∃ wire, w.wires.get? wire = some r) ∨ w.zero = some r ∨ r = .placed 0) ∨
    ∃ g ∈ gs, g.output = r

theorem Within.mono {w : Walk} {gs hs : List (LoweredGate WireRef)} {r : WireRef}
    (h : w.Within gs r) (hsub : gs ⊆ hs) : w.Within hs r := by
  rcases h with h | ⟨g, hg, hr⟩
  · exact .inl h
  · exact .inr ⟨g, hsub hg, hr⟩

theorem Within.append {w : Walk} {gs : List (LoweredGate WireRef)} {r : WireRef}
    (h : w.Within gs r) (hs : List (LoweredGate WireRef)) : w.Within (gs ++ hs) r :=
  h.mono (List.subset_append_left gs hs)

/-- A walk goes on by emitting a row of gates. -/
inductive Emits (inputBits : Nat) (w : Walk) : List (LoweredGate WireRef) → Walk → Prop where
  | refl : Emits inputBits w [] w
  /-- A gate is emitted that writes a reference of its own. -/
  | put {gs : List (LoweredGate WireRef)} {w' : Walk} (h : Emits inputBits w gs w')
      (toOutput : Bool) {g : WireRef → LoweredGate WireRef} (output : ∀ z, (g z).output = z)
      (operands : 0 < inputBits → ∀ z, ∀ x ∈ (g z).operands, w.Within gs x) :
      Emits inputBits w (gs ++ [g (w'.put toOutput g).1]) (w'.put toOutput g).2
  | offer {gs : List (LoweredGate WireRef)} {w' : Walk} (h : Emits inputBits w gs w')
      {r : WireRef} (within : 0 < inputBits → w.Within gs r) :
      Emits inputBits w gs (w'.offerZero r)
  /-- Without an input a wire is handed out that nothing writes. -/
  | skip {gs : List (LoweredGate WireRef)} {w' : Walk} (h : Emits inputBits w gs w')
      (empty : inputBits = 0) : Emits inputBits w gs w'.fresh.2

variable {inputBits : Nat} {w w' : Walk} {gs : List (LoweredGate WireRef)}

theorem put_gates (w : Walk) (toOutput : Bool) (g : WireRef → LoweredGate WireRef) :
    (w.put toOutput g).2.gates.toList = w.gates.toList ++ [g (w.put toOutput g).1] := by
  cases toOutput <;> simp [put, freshFor, fresh, freshOutput, emit]

theorem put_inner (w : Walk) (g : WireRef → LoweredGate WireRef) :
    (w.put false g).1 = .placed w.next := rfl

theorem put_output (w : Walk) (g : WireRef → LoweredGate WireRef) :
    (w.put true g).1 = .output w.outputs := rfl

theorem innerWritten_put {g : WireRef → LoweredGate WireRef} (output : ∀ z, (g z).output = z)
    (r : WireRef) : innerWritten [g r] = r.inner?.toList := by
  rw [innerWritten, List.filterMap_cons, output]
  cases r <;> rfl

theorem ticketsWritten_put {g : WireRef → LoweredGate WireRef} (output : ∀ z, (g z).output = z)
    (r : WireRef) : ticketsWritten [g r] = r.ticket?.toList := by
  rw [ticketsWritten, List.filterMap_cons, output]
  cases r <;> rfl

/-- The gates emitted are put behind those before, and the map of wires stays. -/
theorem Emits.frame (h : Emits inputBits w gs w') :
    w'.gates.toList = w.gates.toList ++ gs ∧ w'.wires = w.wires ∧
      w'.sawOutput = w.sawOutput := by
  induction h with
  | refl => exact ⟨(List.append_nil _).symm, rfl, rfl⟩
  | put h toOutput output operands ih =>
      obtain ⟨hgates, hwires, hsaw⟩ := ih
      refine ⟨?_, ?_, ?_⟩
      · rw [put_gates, hgates, List.append_assoc]
      · cases toOutput <;> exact hwires
      · cases toOutput <;> exact hsaw
  | offer h within ih => exact ih
  | skip h empty ih => exact ih

/-- Tickets are handed out in turn, and each is written at once. -/
theorem Emits.tickets (h : Emits inputBits w gs w') :
    ∃ count, w'.outputs = w.outputs + count ∧
      ticketsWritten gs = List.range' w.outputs count := by
  induction h with
  | refl => exact ⟨0, rfl, rfl⟩
  | put h toOutput output operands ih =>
      obtain ⟨count, houtputs, htickets⟩ := ih
      rw [ticketsWritten_append, htickets]
      cases toOutput with
      | false =>
          refine ⟨count, houtputs, ?_⟩
          rw [ticketsWritten_put output, put_inner, WireRef.ticket?, Option.toList_none,
            List.append_nil]
      | true =>
          refine ⟨count + 1, congrArg (· + 1) houtputs, ?_⟩
          rw [List.range'_1_concat, ← houtputs, ticketsWritten_put output, put_output]
          rfl
  | offer h within ih => exact ih
  | skip h empty ih => exact ih

/-- With an input, inner wires are handed out in turn, and each is written at once. -/
theorem Emits.inner (h : Emits inputBits w gs w') (hpos : 0 < inputBits) :
    ∃ count, w'.next = w.next + count ∧ innerWritten gs = List.range' w.next count := by
  induction h with
  | refl => exact ⟨0, rfl, rfl⟩
  | put h toOutput output operands ih =>
      obtain ⟨count, hnext, hinner⟩ := ih
      rw [innerWritten_append, hinner]
      cases toOutput with
      | false =>
          refine ⟨count + 1, congrArg (· + 1) hnext, ?_⟩
          rw [List.range'_1_concat, ← hnext, innerWritten_put output, put_inner]
          rfl
      | true =>
          refine ⟨count, hnext, ?_⟩
          rw [innerWritten_put output, put_output, WireRef.inner?, Option.toList_none,
            List.append_nil]
  | offer h within ih => exact ih
  | skip h empty ih => exact absurd empty (Nat.ne_of_gt hpos)

/-- With an input, the zero wire is at hand or written. -/
theorem Emits.zero (h : Emits inputBits w gs w') (hpos : 0 < inputBits) {r : WireRef}
    (hr : w'.zero = some r) : w.Within gs r := by
  induction h with
  | refl => exact .inl (.inr (.inl hr))
  | put h toOutput output operands ih =>
      have hzero : ∀ v : Walk, ∀ g, (v.put toOutput g).2.zero = v.zero := by
        intro v g
        cases toOutput <;> rfl
      rw [hzero] at hr
      exact (ih hr).append _
  | @offer gs w' h r' within ih =>
      cases hold : w'.zero with
      | none =>
          rw [offerZero, hold, Option.getD_none] at hr
          exact Option.some.inj hr ▸ within hpos
      | some z =>
          rw [offerZero, hold, Option.getD_some] at hr
          exact ih (hold.trans hr)
  | skip h empty ih => exact ih hr

/-- With an input, a gate reads what is at hand and what the gates before it write. -/
theorem Emits.reads (h : Emits inputBits w gs w') (hpos : 0 < inputBits) {i : Nat}
    {g : LoweredGate WireRef} (hg : gs[i]? = some g) {x : WireRef} (hx : x ∈ g.operands) :
    w.Within (gs.take i) x := by
  induction h with
  | refl => simp at hg
  | @put gs w' h toOutput f output operands ih =>
      rcases Nat.lt_or_ge i gs.length with hlt | hge
      · rw [List.getElem?_append_left hlt] at hg
        rw [List.take_append_of_le_length (Nat.le_of_lt hlt)]
        exact ih hg
      · obtain ⟨rfl, rfl⟩ : i = gs.length ∧ f (w'.put toOutput f).1 = g := by
          rw [List.getElem?_append_right hge, List.getElem?_singleton] at hg
          split at hg
          · exact ⟨by omega, Option.some.inj hg⟩
          · cases hg
        rw [List.take_left]
        exact operands hpos _ x hx
  | offer h within ih => exact ih hg
  | skip h empty ih => exact ih hg

/-! ## One gate -/

/-- What lowering a gate does: it emits a row of gates and gives the wire `r`. -/
structure Lowers (inputBits : Nat) (w w' : Walk) (toOutput : Bool) (r : WireRef)
    (gs : List (LoweredGate WireRef)) : Prop where
  emits : Emits inputBits w gs w'
  within : 0 < inputBits → w.Within gs r
  inner : toOutput = false → w'.outputs = w.outputs
  /-- An output wire has the next ticket, and the last gate writes it. -/
  last : toOutput = true → w'.outputs = w.outputs + 1 ∧ r = .output w.outputs ∧
    ∃ init g, gs = init ++ [g] ∧ g.output = r

/-- A row of inner gates and a last one that gives the wire. -/
theorem Emits.lowers (h : Emits inputBits w gs w') (hinner : w'.outputs = w.outputs)
    (toOutput : Bool) {g : WireRef → LoweredGate WireRef} (output : ∀ z, (g z).output = z)
    (operands : 0 < inputBits → ∀ z, ∀ x ∈ (g z).operands, w.Within gs x) :
    Lowers inputBits w (w'.put toOutput g).2 toOutput (w'.put toOutput g).1
      (gs ++ [g (w'.put toOutput g).1]) where
  emits := h.put toOutput output operands
  within _ := .inr ⟨_, List.mem_append_right _ List.mem_cons_self, output _⟩
  inner hfalse := by
    subst hfalse
    exact hinner
  last htrue := by
    subst htrue
    refine ⟨congrArg (· + 1) hinner, congrArg WireRef.output hinner, gs, _, rfl, output _⟩

/-- The zero wire is at hand or written by an inner gate emitted for it. -/
theorem emits_demandZero (w : Walk) (inputBits : Nat) :
    ∃ gs, Emits inputBits w gs (w.demandZero inputBits).2 ∧
      (0 < inputBits → w.Within gs (w.demandZero inputBits).1) ∧
      (w.demandZero inputBits).2.outputs = w.outputs := by
  unfold demandZero
  split
  · rename_i zero hzero
    exact ⟨[], .refl, fun _ => .inl (.inr (.inl hzero)), rfl⟩
  · have hsource : Emits inputBits w [] (w.zeroSource inputBits).2 ∧
        (0 < inputBits → w.Within [] (w.zeroSource inputBits).1) ∧
        (w.zeroSource inputBits).2.outputs = w.outputs := by
      unfold zeroSource
      split
      · exact ⟨.refl, fun _ => .inl (.inr (.inr rfl)), rfl⟩
      · rename_i hzero
        exact ⟨.skip .refl (by omega), fun hpos => absurd hpos hzero, rfl⟩
    obtain ⟨hemits, hwithin, houtputs⟩ := hsource
    have hput := hemits.lowers houtputs false
      (g := .xor (w.zeroSource inputBits).1 (w.zeroSource inputBits).1) (fun _ => rfl)
      (fun hpos z x hx => by
        simp only [LoweredGate.operands, List.mem_cons, List.not_mem_nil, or_false, or_self] at hx
        exact hx ▸ hwithin hpos)
    exact ⟨_, hput.emits.offer hput.within, hput.within, hput.inner rfl⟩

/-- A gate of two operands is lowered to a few gates that read them. -/
theorem emitBinary_lowers (inputBits : Nat) (op : BinaryOp) {x y : WireRef} (toOutput : Bool)
    (hx : w.Within [] x) (hy : w.Within [] y) :
    ∃ gs, Lowers inputBits w (w.emitBinary op x y toOutput).2 toOutput
      (w.emitBinary op x y toOutput).1 gs := by
  have hxy : ∀ {z}, z ∈ [x, y] → w.Within [] z := by
    intro z hz
    rcases List.mem_cons.mp hz with rfl | hz
    · exact hx
    · exact List.mem_singleton.mp hz ▸ hy
  have hrefl : Emits inputBits w [] w := .refl
  cases op with
  | and =>
      exact ⟨_, hrefl.lowers rfl toOutput (g := .and x y) (fun _ => rfl) fun _ _ _ hz => hxy hz⟩
  | xor =>
      have hput := hrefl.lowers rfl toOutput (g := .xor x y) (fun _ => rfl) fun _ _ _ hz => hxy hz
      simp only [emitBinary]
      split
      · exact ⟨_, hput.emits.offer hput.within, hput.within, hput.inner, hput.last⟩
      · exact ⟨_, hput⟩
  | or =>
      rw [emitBinary_or]
      have hnotX := hrefl.lowers rfl false (g := .inv x) (fun _ => rfl)
        fun _ _ _ hz => List.mem_singleton.mp hz ▸ hx
      have hnotY := hnotX.emits.lowers (hnotX.inner rfl) false (g := .inv y) (fun _ => rfl)
        fun _ _ _ hz => List.mem_singleton.mp hz ▸ hy.append _
      have hboth := hnotY.emits.lowers (hnotY.inner rfl) false
        (g := .and (w.put false (.inv x)).1 ((w.put false (.inv x)).2.put false (.inv y)).1)
        (fun _ => rfl) fun hpos z a ha => by
          rcases List.mem_cons.mp ha with rfl | ha
          · exact (hnotX.within hpos).append _
          · exact List.mem_singleton.mp ha ▸ hnotY.within hpos
      exact ⟨_, hboth.emits.lowers (hboth.inner rfl) toOutput (fun _ => rfl)
        fun hpos z a ha => List.mem_singleton.mp ha ▸ hboth.within hpos⟩

/-- A gate of one operand is lowered to a few gates that read it, or to its operand. -/
theorem emitUnary_lowers (inputBits : Nat) (op : UnaryOp) {x : WireRef} (toOutput : Bool)
    (hx : w.Within [] x) :
    ∃ gs, Lowers inputBits w (w.emitUnary inputBits op x toOutput).2 toOutput
      (w.emitUnary inputBits op x toOutput).1 gs := by
  cases op with
  | not =>
      exact ⟨_, Emits.refl.lowers rfl toOutput (g := .inv x) (fun _ => rfl)
        fun _ _ _ hz => List.mem_singleton.mp hz ▸ hx⟩
  | copy =>
      cases toOutput with
      | false => exact ⟨[], .refl, fun _ => hx, fun _ => rfl, nofun⟩
      | true =>
          obtain ⟨gs, hemits, hzero, houtputs⟩ := w.emits_demandZero inputBits
          exact ⟨_, hemits.lowers houtputs true
            (g := .xor x (w.demandZero inputBits).1) (fun _ => rfl) fun hpos z a ha => by
              rcases List.mem_cons.mp ha with rfl | ha
              · exact hx.mono (List.nil_subset _)
              · exact List.mem_singleton.mp ha ▸ hzero hpos⟩

/-- Lowering a gate emits a row of gates, and one of its operands was mapped. -/
theorem lower_lowers {toOutput : Bool} {g : Gate} {r : WireRef}
    (h : w.lower inputBits toOutput g = .ok (r, w')) :
    (∃ wire x, w.wires.get? wire = some x) ∧ ∃ gs, Lowers inputBits w w' toOutput r gs := by
  cases g with
  | binary op left right output =>
      obtain ⟨x, hx, h⟩ := bind_eq_ok.mp h
      obtain ⟨y, hy, h⟩ := bind_eq_ok.mp h
      rw [operand_eq_ok] at hx hy
      have hlowers := emitBinary_lowers inputBits op toOutput
        (.inl (.inl ⟨left, hx⟩)) (.inl (.inl ⟨right, hy⟩))
      rw [Except.ok.inj h] at hlowers
      exact ⟨⟨left, x, hx⟩, hlowers⟩
  | unary op input output =>
      obtain ⟨x, hx, h⟩ := bind_eq_ok.mp h
      rw [operand_eq_ok] at hx
      have hlowers := emitUnary_lowers inputBits op toOutput
        (.inl (.inl ⟨input, hx⟩))
      rw [Except.ok.inj h] at hlowers
      exact ⟨⟨input, x, hx⟩, hlowers⟩

/-- Lowering a gate leaves the map of wires and the mark of output wires alone. -/
theorem lower_frame {toOutput : Bool} {g : Gate} {r : WireRef}
    (h : w.lower inputBits toOutput g = .ok (r, w')) :
    w'.wires = w.wires ∧ w'.sawOutput = w.sawOutput := by
  obtain ⟨_, gs, hlowers⟩ := lower_lowers h
  exact hlowers.emits.frame.2

end Walk

end JointCircuit

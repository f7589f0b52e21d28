import JointCircuit.Proofs.Lowering.Emission

/-!
# Emitted gates are straight-line code

A reference is given when it is an input wire or when a gate of a row writes it
(`WireRef.Given`).  `Walk.Straight` is the invariant of a walk: each of its gates
reads only what is given by the gates before it, its gates write every inner wire
and every ticket once and in turn, and whatever is mapped is given.

A wire is mapped only if there is an input.  Every gate has an operand, and it must be
mapped, so the walk of a circuit without inputs takes no gate.  This is why no gate
ever reads the wire that stands in for a missing first input.

`Walk.emitted` lists for each gate of a netlist what was emitted for it.  The gates
that write tickets are the last ones of the rows of gates that write outputs
(`Walk.Straight.run`).
-/

namespace JointCircuit

/-- A reference is an input wire, or a gate of a row writes it. -/
def WireRef.Given (inputBits : Nat) (gs : List (LoweredGate WireRef)) (r : WireRef) : Prop :=
  (∃ k < inputBits, r = .placed k) ∨ ∃ g ∈ gs, g.output = r

theorem WireRef.Given.append {inputBits : Nat} {gs : List (LoweredGate WireRef)} {r : WireRef}
    (h : r.Given inputBits gs) (hs : List (LoweredGate WireRef)) :
    r.Given inputBits (gs ++ hs) := by
  rcases h with h | ⟨g, hg, hr⟩
  · exact .inl h
  · exact .inr ⟨g, List.mem_append_left hs hg, hr⟩

/-- A gate writes an output wire. -/
def LoweredGate.writesTicket (g : LoweredGate WireRef) : Bool := g.output.ticket?.isSome

theorem filter_writesTicket {gs : List (LoweredGate WireRef)} (h : ticketsWritten gs = []) :
    gs.filter LoweredGate.writesTicket = [] := by
  rw [ticketsWritten, List.filterMap_eq_nil_iff] at h
  rw [List.filter_eq_nil_iff]
  intro g hg
  simp [LoweredGate.writesTicket, h g hg]

namespace Walk

/-- The gates of a walk are straight-line code from the inputs on. -/
structure Straight (inputBits : Nat) (w : Walk) : Prop where
  le : inputBits ≤ w.next
  inner : innerWritten w.gates.toList = List.range' inputBits (w.next - inputBits)
  tickets : ticketsWritten w.gates.toList = List.range' 0 w.outputs
  reads : ∀ (i : Nat) (g : LoweredGate WireRef), w.gates.toList[i]? = some g →
    ∀ x ∈ g.operands, x.Given inputBits (w.gates.toList.take i)
  /-- What is mapped is given, and without an input nothing is mapped. -/
  wires : ∀ wire r, w.wires.get? wire = some r →
    0 < inputBits ∧ r.Given inputBits w.gates.toList
  zero : ∀ r, w.zero = some r → r.Given inputBits w.gates.toList

variable {inputBits firstOutput : Nat} {w w' : Walk} {gs : List (LoweredGate WireRef)}

/-- What was at hand is given. -/
theorem Straight.given (h : w.Straight inputBits) (hpos : 0 < inputBits) {r : WireRef}
    (hr : w.Within gs r) : r.Given inputBits (w.gates.toList ++ gs) := by
  rcases hr with (⟨wire, hwire⟩ | hzero | rfl) | ⟨g, hg, hr⟩
  · exact (h.wires wire r hwire).2.append gs
  · exact (h.zero r hzero).append gs
  · exact .inl ⟨0, hpos, rfl⟩
  · exact .inr ⟨g, List.mem_append_right _ hg, hr⟩

/-- Emitting gates keeps them straight-line code. -/
theorem Straight.emits (h : w.Straight inputBits) (hpos : 0 < inputBits)
    (hemits : Emits inputBits w gs w') : w'.Straight inputBits := by
  obtain ⟨hgates, hwires, _⟩ := hemits.frame
  obtain ⟨inner, hnext, hinner⟩ := hemits.inner hpos
  obtain ⟨tickets, houtputs, htickets⟩ := hemits.tickets
  refine ⟨?_, ?_, ?_, ?_, ?_, ?_⟩
  · exact hnext ▸ Nat.le_add_right_of_le h.le
  · obtain ⟨k, hk⟩ := Nat.exists_eq_add_of_le h.le
    have hbefore : w.next - inputBits = k := by omega
    have hafter : w'.next - inputBits = k + inner := by omega
    rw [hgates, innerWritten_append, h.inner, hinner, hbefore, hafter, hk, List.range'_append_1]
  · rw [hgates, ticketsWritten_append, h.tickets, htickets, houtputs]
    have hrange := List.range'_append_1 (s := 0) (m := w.outputs) (n := tickets)
    rwa [Nat.zero_add] at hrange
  · intro i g hg x hx
    rw [hgates] at hg ⊢
    rcases Nat.lt_or_ge i w.gates.toList.length with hlt | hge
    · rw [List.getElem?_append_left hlt] at hg
      rw [List.take_append_of_le_length (Nat.le_of_lt hlt)]
      exact h.reads i g hg x hx
    · rw [List.getElem?_append_right hge] at hg
      rw [List.take_append, List.take_of_length_le hge]
      exact h.given hpos (hemits.reads hpos hg hx)
  · intro wire r hr
    rw [hwires] at hr
    exact ⟨hpos, hgates ▸ (h.wires wire r hr).2.append gs⟩
  · intro r hr
    exact hgates ▸ h.given hpos (hemits.zero hpos hr)

/-- The row of gates that was emitted for a gate of the netlist.  Only its last gate writes
a ticket, and only for a gate that writes an output. -/
structure RowOf (firstOutput : Nat) (g : Gate) (row : List (LoweredGate WireRef)) : Prop where
  inner : g.output < firstOutput → row.filter LoweredGate.writesTicket = []
  last : firstOutput ≤ g.output →
    ∃ d, row.getLast? = some d ∧ row.filter LoweredGate.writesTicket = [d]

theorem Lowers.rowOf {r : WireRef} {g : Gate}
    (h : Lowers inputBits w w' (decide (firstOutput ≤ g.output)) r gs) :
    RowOf firstOutput g gs := by
  obtain ⟨count, houtputs, htickets⟩ := h.emits.tickets
  constructor
  · intro hlt
    have hsame := h.inner (decide_eq_false (Nat.not_le.mpr hlt))
    obtain rfl : count = 0 := by omega
    exact filter_writesTicket htickets
  · intro hle
    obtain ⟨hone, rfl, init, d, rfl, hd⟩ := h.last (decide_eq_true hle)
    obtain rfl : count = 1 := by omega
    have hinit : ticketsWritten init = [] := by
      -- the one ticket written is the last gate's
      have hlen := congrArg List.length htickets
      rw [ticketsWritten_append, List.length_append, List.length_range'] at hlen
      have hone : (ticketsWritten [d]).length = 1 := by
        simp [ticketsWritten, hd, WireRef.ticket?]
      exact List.eq_nil_of_length_eq_zero (by omega)
    refine ⟨d, List.getLast?_concat, ?_⟩
    rw [List.filter_append, filter_writesTicket hinit, List.nil_append]
    simp [LoweredGate.writesTicket, hd, WireRef.ticket?]

/-- A step emits a row for its gate, and keeps the gates straight-line code. -/
theorem Straight.step (h : w.Straight inputBits) {g : Gate}
    (hstep : step inputBits firstOutput w g = .ok w') :
    w'.Straight inputBits ∧ ∃ row, w'.gates.toList = w.gates.toList ++ row ∧
      RowOf firstOutput g row := by
  obtain ⟨_, r, w₁, hlower, rfl⟩ := step_eq_ok.mp hstep
  obtain ⟨⟨wire, x, hx⟩, row, hlowers⟩ := lower_lowers hlower
  obtain ⟨hpos, _⟩ := h.wires wire x hx
  have h₀ : Straight inputBits { w with sawOutput := decide (firstOutput ≤ g.output) } :=
    ⟨h.le, h.inner, h.tickets, h.reads, h.wires, h.zero⟩
  have h₁ := h₀.emits hpos hlowers.emits
  obtain ⟨hgates, _, _⟩ := hlowers.emits.frame
  refine ⟨⟨h₁.le, h₁.inner, h₁.tickets, h₁.reads, ?_, h₁.zero⟩, row, hgates, hlowers.rowOf⟩
  intro wire r' hr'
  rw [IndexMap.get?_set] at hr'
  split at hr'
  · cases hr'
    exact ⟨hpos, hgates ▸ h₀.given hpos (hlowers.within hpos)⟩
  · exact h₁.wires wire r' hr'

/-! ## A row of gates -/

/-- What is emitted for each gate of a row. -/
def emitted (inputBits firstOutput : Nat) :
    Walk → List PlacedGate → List (List (LoweredGate WireRef))
  | _, [] => []
  | w, g :: gs =>
      match Walk.step inputBits firstOutput w g.gate with
      | .error _ => []
      | .ok w' => w'.gates.toList.drop w.gates.size :: emitted inputBits firstOutput w' gs

/-- A walk emits a row of gates for each gate it takes.  The gates that write tickets are
the last ones of the rows for gates that write outputs. -/
theorem Straight.run {gs : List PlacedGate} (h : w.Straight inputBits)
    (hrun : run inputBits firstOutput w gs = .ok w') :
    w'.Straight inputBits ∧ (emitted inputBits firstOutput w gs).length = gs.length ∧
      w'.gates.toList = w.gates.toList ++ (emitted inputBits firstOutput w gs).flatten ∧
      ((emitted inputBits firstOutput w gs).flatten.filter LoweredGate.writesTicket).map some =
        ((gs.zip (emitted inputBits firstOutput w gs)).filter
          fun e => firstOutput ≤ e.1.gate.output).map fun e => e.2.getLast? := by
  induction gs generalizing w with
  | nil =>
      cases hrun
      exact ⟨h, rfl, (List.append_nil _).symm, rfl⟩
  | cons g gs ih =>
      obtain ⟨w₁, hstep, hrun⟩ := run_cons_eq_ok.mp hrun
      obtain ⟨h₁, row, hrow, hof⟩ := h.step hstep
      obtain ⟨h', hlen, hgates, hlast⟩ := ih h₁ hrun
      have hdrop : w₁.gates.toList.drop w.gates.size = row := by
        rw [hrow, ← Array.length_toList, List.drop_left]
      simp only [emitted, hstep, hdrop, List.length_cons, List.flatten_cons, List.filter_append,
        List.map_append, List.zip_cons_cons, List.filter_cons, hlen, hlast]
      refine ⟨h', trivial, ?_, ?_⟩
      · rw [hgates, hrow, List.append_assoc]
      · rcases Nat.lt_or_ge g.gate.output firstOutput with hlt | hge
        · rw [hof.inner hlt, if_neg (by simpa using hlt)]
          rfl
        · obtain ⟨d, hd, hfilter⟩ := hof.last hge
          rw [hfilter, if_pos (decide_eq_true hge)]
          simp [hd]

end Walk

end JointCircuit

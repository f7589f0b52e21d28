import JointCircuit.Circuit.Evaluation
import JointCircuit.Proofs.Lowering.Emission

/-!
# Which wires are mapped

A gate maps the wire it writes and no other.  From the first named output on it
maps it to an output wire, with the next ticket.  So after the walk a wire from
there on has an output ticket when a gate writes it, and otherwise what the
placement of the inputs gave it.
-/

namespace JointCircuit

/-- Some gate of a row writes a wire. -/
def Writes (gs : List PlacedGate) (wire : Nat) : Prop := ∃ g ∈ gs, g.gate.output = wire

instance (gs : List PlacedGate) (wire : Nat) : Decidable (Writes gs wire) :=
  inferInstanceAs (Decidable (∃ g ∈ gs, g.gate.output = wire))

theorem writes_cons {g : PlacedGate} {gs : List PlacedGate} {wire : Nat} :
    Writes (g :: gs) wire ↔ g.gate.output = wire ∨ Writes gs wire := by
  simp [Writes]

namespace Walk

variable {w w' : Walk} {r : WireRef} {inputBits firstOutput : Nat}

/-- A step maps the wire its gate writes, to an output wire if it is one. -/
theorem step_get? {g : Gate} (h : step inputBits firstOutput w g = .ok w') :
    ∃ r, (∀ wire, w'.wires.get? wire = if wire = g.output then some r else w.wires.get? wire) ∧
      (firstOutput ≤ g.output → ∃ t, r = .output t) := by
  obtain ⟨_, r, w₁, hlower, rfl⟩ := step_eq_ok.mp h
  refine ⟨r, fun wire => ?_, fun hout => ?_⟩
  · rw [IndexMap.get?_set, (lower_frame hlower).1]
  · obtain ⟨_, _, hlowers⟩ := lower_lowers hlower
    exact ⟨_, (hlowers.last (decide_eq_true hout)).2.1⟩

/-- A wire that no gate writes keeps what it was mapped to. -/
theorem run_get?_of_not_writes {wire : Nat} :
    ∀ {gs : List PlacedGate} {w w' : Walk}, run inputBits firstOutput w gs = .ok w' →
      ¬ Writes gs wire → w'.wires.get? wire = w.wires.get? wire
  | [], _, _, h, _ => by
      cases h
      rfl
  | g :: gs, w, w', h, hnot => by
      obtain ⟨w₁, hstep, hrun⟩ := run_cons_eq_ok.mp h
      rw [writes_cons, not_or] at hnot
      obtain ⟨r, hget, _⟩ := step_get? hstep
      rw [run_get?_of_not_writes hrun hnot.2, hget, if_neg (Ne.symm hnot.1)]

/-- A wire from the first named output on that a gate writes is mapped to an output
wire. -/
theorem run_get?_of_writes {wire : Nat} (hfirst : firstOutput ≤ wire) :
    ∀ {gs : List PlacedGate} {w w' : Walk}, run inputBits firstOutput w gs = .ok w' →
      Writes gs wire → ∃ t, w'.wires.get? wire = some (.output t)
  | g :: gs, w, w', h, hwrites => by
      obtain ⟨w₁, hstep, hrun⟩ := run_cons_eq_ok.mp h
      by_cases hlater : Writes gs wire
      · exact run_get?_of_writes hfirst hrun hlater
      · have hhere : g.gate.output = wire := (writes_cons.mp hwrites).resolve_right hlater
        obtain ⟨r, hget, hout⟩ := step_get? hstep
        obtain ⟨t, rfl⟩ := hout (hhere ▸ hfirst)
        exact ⟨t, by rw [run_get?_of_not_writes hrun hlater, hget, if_pos hhere.symm]⟩
  | [], _, _, _, hwrites => by
      obtain ⟨_, hmem, _⟩ := hwrites
      cases hmem

end Walk

end JointCircuit

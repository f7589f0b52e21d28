import JointCircuit.Proofs.Compiled.Stages
import Mathlib.Data.List.Forall2

/-!
# What a compiled setup takes from its parties

Two lists of parties share out the inputs of a circuit alike when their parties have the
same names in the same order and each lists the same inputs, in any order
(`Party.SameShare`).  The outputs they list do not count.

A setup takes from its parties only which slots each of them has, and takes these in the
order of the slots.  So behind the check nothing can tell two such lists apart: compiling
fails with one fault of the circuit, or gives one lowered circuit with one map of wires,
and values and bits go through both in the same way (`Setup.compile_sameShares`).  What
remains different are the fingerprints and who is shown which output.
-/

namespace JointCircuit

/-- Two parties have the same name and list the same inputs. -/
structure Party.SameShare (p q : Party) : Prop where
  name : p.name = q.name
  inputs : p.inputs.Perm q.inputs

/-- Nothing is different in two compiled setups but their parties and fingerprints. -/
structure Compiled.Alike (c c' : Compiled) : Prop where
  lowered : c.lowered = c'.lowered
  inputs : c.inputs = c'.inputs
  outputs : c.outputs = c'.outputs
  wires : c.wires = c'.wires
  /-- The parties have the same names in the same order. -/
  names : c.parties.map Party.name = c'.parties.map Party.name

theorem map_eq_of_forall₂ {α β γ : Type} {R : α → β → Prop} {f : α → γ} {g : β → γ}
    (hfg : ∀ a b, R a b → f a = g b) {xs : List α} {ys : List β} (h : List.Forall₂ R xs ys) :
    xs.map f = ys.map g := by
  induction h with
  | nil => rfl
  | cons hab _ ih => rw [List.map_cons, List.map_cons, hfg _ _ hab, ih]

/-! ## The stages behind the check -/

namespace Setup

/-- Lay the values of a setup over the wires of its circuit and walk over the gates. -/
def lower (s : Setup) : Except FormatError (Layout × Walk) := do
  let n ← Netlist.parse s.circuit.text
  let l ← s.layOut n
  let w ← s.walk n l.placement
  .ok (l, w)

/-- A setup that passes the check fails to compile by a fault of its circuit only. -/
theorem compile_eq_lower {s : Setup} (hcheck : s.check = .ok ()) :
    s.compile = (s.lower.map fun e => s.assemble e.1 e.2).mapError CompileError.format := by
  simp only [compile, lower, hcheck]
  cases Netlist.parse s.circuit.text with
  | error e => rfl
  | ok n =>
      simp only [ok_bind]
      cases hlay : s.layOut n with
      | error e =>
          simp only [formatStage, Except.mapError, ok_bind, hlay]
          rfl
      | ok l =>
          simp only [formatStage, Except.mapError, ok_bind, hlay]
          cases s.walk n l.placement <;> rfl

variable {s s' : Setup}

/-- The slots of a party do not depend on the order in which it lists its inputs. -/
theorem select_perm (slots : List Slot) {names names' : List String} (h : names.Perm names') :
    Slot.select slots names = Slot.select slots names' :=
  List.filter_congr fun t _ => by
    rw [Bool.eq_iff_iff, List.contains_iff_mem, List.contains_iff_mem]
    exact h.mem_iff

/-- Parties that share out the inputs alike have the same slots. -/
theorem partySlots_congr (h : List.Forall₂ Party.SameShare s.parties s'.parties)
    (slots : List Slot) : s.partySlots slots = s'.partySlots slots :=
  map_eq_of_forall₂ (fun _ _ hpq => select_perm slots hpq.inputs) h

theorem layOut_congr (hcircuit : s.circuit = s'.circuit)
    (h : List.Forall₂ Party.SameShare s.parties s'.parties) (n : Netlist) :
    s.layOut n = s'.layOut n := by
  have hslots : ∀ slots, (s.parties.map fun p => Slot.select slots p.inputs) =
      s'.parties.map fun p => Slot.select slots p.inputs := partySlots_congr h
  simp only [layOut, hcircuit, hslots]

theorem walk_congr (hcircuit : s.circuit = s'.circuit) (n : Netlist) (p : Placement) :
    s.walk n p = s'.walk n p := by
  rw [walk, walk, hcircuit]

/-- The stages behind the check do not tell parties apart that share out the inputs alike. -/
theorem lower_congr (hcircuit : s.circuit = s'.circuit)
    (h : List.Forall₂ Party.SameShare s.parties s'.parties) : s.lower = s'.lower := by
  simp only [lower, hcircuit, layOut_congr hcircuit h, walk_congr hcircuit]

theorem assemble_alike (h : List.Forall₂ Party.SameShare s.parties s'.parties) (l : Layout)
    (w : Walk) : (s.assemble l w).Alike (s'.assemble l w) :=
  ⟨rfl, rfl, rfl, rfl, map_eq_of_forall₂ (fun _ _ hpq => hpq.name) h⟩

end Setup

/-! ## Values and bits -/

namespace Compiled.Alike

variable {c c' : Compiled}

theorem newWire?_eq (h : c.Alike c') (wire : Nat) : c.newWire? wire = c'.newWire? wire := by
  rw [newWire?, newWire?, h.wires]

theorem partyIndex?_eq (h : c.Alike c') (name : String) :
    c.partyIndex? name = c'.partyIndex? name := by
  have hindex : ∀ parties : List Party, JointCircuit.partyIndex? parties name =
      (parties.map Party.name).findIdx? fun n => n == name := by
    intro parties
    rw [List.findIdx?_map]
    rfl
  rw [Compiled.partyIndex?, Compiled.partyIndex?, hindex, hindex, h.names]

theorem encodeInput_eq (h : c.Alike c') (name : String) (values : Values) :
    c.encodeInput name values = c'.encodeInput name values := by
  rw [encodeInput, encodeInput, h.partyIndex?_eq, h.inputs]

/-- The values of a row of parties give the same bits when the parties have the same names. -/
theorem encodeAll_eq (h : c.Alike c') {ps qs : List Party}
    (hnames : ps.map Party.name = qs.map Party.name) (inputs : List Values) :
    c.encodeAll (ps.zip inputs) = c'.encodeAll (qs.zip inputs) := by
  induction inputs generalizing ps qs with
  | nil => rw [List.zip_nil_right, List.zip_nil_right, encodeAll, encodeAll]
  | cons values inputs ih =>
      cases ps with
      | nil =>
          rw [List.map_eq_nil_iff.mp hnames.symm]
          rfl
      | cons p ps =>
          obtain ⟨q, qs, rfl, hname, hrest⟩ := List.map_eq_cons_iff.mp hnames.symm
          rw [List.zip_cons_cons, List.zip_cons_cons, encodeAll, encodeAll, h.encodeInput_eq, hname,
            ih hrest.symm]

theorem outputPlace?_eq (h : c.Alike c') (wire : Nat) :
    c.outputPlace? wire = c'.outputPlace? wire := by
  rw [outputPlace?, outputPlace?, h.newWire?_eq, h.lowered]

theorem readWires_eq (h : c.Alike c') (block : List Bool) (name : String) (count wire : Nat) :
    c.readWires block name count wire = c'.readWires block name count wire := by
  induction count generalizing wire with
  | zero => rw [readWires, readWires]
  | succ count ih => simp only [readWires, h.outputPlace?_eq, ih]

theorem decodeSlots_eq (h : c.Alike c') (block : List Bool) (slots : List Slot) :
    c.decodeSlots block slots = c'.decodeSlots block slots := by
  induction slots with
  | nil => rw [decodeSlots, decodeSlots]
  | cons t slots ih => simp only [decodeSlots, decodeSlot, h.readWires_eq, ih]

theorem decodeOutput_eq (h : c.Alike c') (block : List Bool) :
    c.decodeOutput block = c'.decodeOutput block := by
  rw [decodeOutput, decodeOutput, h.lowered, h.outputs, h.decodeSlots_eq]

theorem eval_eq (h : c.Alike c') (inputs : List Values) : c.eval inputs = c'.eval inputs := by
  have hcount := congrArg List.length h.names
  rw [List.length_map, List.length_map] at hcount
  simp only [eval, hcount, h.encodeAll_eq h.names, h.lowered, h.decodeOutput_eq]

end Compiled.Alike

/-! ## Compiling -/

namespace Setup

/-- Take two lists of parties that fit a circuit and share out its inputs alike.  Compiling
fails with the same fault of the circuit for both, or gives the same lowered circuit and the
same map of wires, and encodes, decodes and evaluates in the same way. -/
theorem compile_sameShares {circuit : Circuit} {ps qs : List Party}
    (hps : Setup.check ⟨circuit, ps⟩ = .ok ()) (hqs : Setup.check ⟨circuit, qs⟩ = .ok ())
    (hshares : List.Forall₂ Party.SameShare ps qs) :
    (∃ e, Setup.compile ⟨circuit, ps⟩ = .error (.format e) ∧
      Setup.compile ⟨circuit, qs⟩ = .error (.format e)) ∨
    ∃ c c', Setup.compile ⟨circuit, ps⟩ = .ok c ∧ Setup.compile ⟨circuit, qs⟩ = .ok c' ∧
      c.lowered = c'.lowered ∧ c.wires = c'.wires ∧
      (∀ wire, c.newWire? wire = c'.newWire? wire) ∧
      (∀ name values, c.encodeInput name values = c'.encodeInput name values) ∧
      (∀ block, c.decodeOutput block = c'.decodeOutput block) ∧
      ∀ inputs, c.eval inputs = c'.eval inputs := by
  have hlower : Setup.lower ⟨circuit, ps⟩ = Setup.lower ⟨circuit, qs⟩ := lower_congr rfl hshares
  rw [compile_eq_lower hps, compile_eq_lower hqs, ← hlower]
  cases Setup.lower ⟨circuit, ps⟩ with
  | error e => exact .inl ⟨e, rfl, rfl⟩
  | ok e =>
      have halike : Compiled.Alike (assemble ⟨circuit, ps⟩ e.1 e.2)
          (assemble ⟨circuit, qs⟩ e.1 e.2) := assemble_alike hshares e.1 e.2
      exact .inr ⟨_, _, rfl, rfl, halike.lowered, halike.wires, halike.newWire?_eq,
        halike.encodeInput_eq, halike.decodeOutput_eq, halike.eval_eq⟩

/-- A circuit with three inputs, of which two start at one wire. -/
def tiedCircuit : Circuit :=
  { text := "2 4\n3 0 1 1\n2 1 1\n2 1 0 1 2 AND\n2 1 0 1 3 XOR"
    inputs := .ofList [("a", 0), ("b", 0), ("c", 1)]
    outputs := .ofList [("u", 2), ("v", 3)] }

/-- Two parties, of which the first has all inputs of the circuit and lists them in an order
given. -/
def tiedParties (inputs seen others : List String) : List Party :=
  [⟨"alice", inputs, seen⟩, ⟨"bob", [], others⟩]

theorem compile_sameShares_tied : ∃ c c',
    Setup.compile ⟨tiedCircuit, tiedParties ["c", "b", "a"] ["u"] ["v"]⟩ = .ok c ∧
      Setup.compile ⟨tiedCircuit, tiedParties ["a", "c", "b"] ["v", "u"] []⟩ = .ok c' ∧
      c.lowered = c'.lowered ∧ ∀ inputs, c.eval inputs = c'.eval inputs := by
  have hperm : ["c", "b", "a"].Perm ["a", "c", "b"] := by decide
  have hshares : List.Forall₂ Party.SameShare (tiedParties ["c", "b", "a"] ["u"] ["v"])
      (tiedParties ["a", "c", "b"] ["v", "u"] []) :=
    .cons ⟨rfl, hperm⟩ (.cons ⟨rfl, .refl _⟩ .nil)
  have hok : (Setup.compile ⟨tiedCircuit, tiedParties ["c", "b", "a"] ["u"] ["v"]⟩).isOk = true :=
    by decide +kernel
  obtain ⟨c₀, hc₀⟩ := exists_ok_of_isOk hok
  rcases @compile_sameShares tiedCircuit _ _ (by decide +kernel) (by decide +kernel) hshares
    with ⟨e, he, _⟩ | ⟨c, c', hc, hc', hlowered, _, _, _, _, heval⟩
  · rw [hc₀] at he
    cases he
  · exact ⟨c, c', hc, hc', hlowered, heval⟩

end Setup

end JointCircuit

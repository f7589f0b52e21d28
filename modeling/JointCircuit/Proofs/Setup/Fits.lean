import JointCircuit.Proofs.Sequence
import JointCircuit.Setup.Check

/-!
# Parties that fit a circuit

`Setup.Fits` says without an algorithm when the parties of a setup fit its
circuit: there are at least two, under distinct names, the inputs they list are
those of the circuit, each listed once, and the outputs they list are those of
the circuit.  `Setup.check_eq_ok_iff` says that this is what the check accepts.
-/

namespace JointCircuit

/-- The inputs of all parties, in order. -/
def listedInputs (parties : List Party) : List String := parties.flatMap Party.inputs

/-- The outputs of all parties, in order. -/
def listedOutputs (parties : List Party) : List String := parties.flatMap Party.outputs

namespace Setup

/-- The parties fit the circuit. -/
structure Fits (s : Setup) : Prop where
  two_le : 2 ≤ s.parties.length
  nodup_names : (s.parties.map Party.name).Nodup
  nodup_inputs : (listedInputs s.parties).Nodup
  mem_inputs : ∀ name, name ∈ listedInputs s.parties ↔ name ∈ s.circuit.inputs.keys
  mem_outputs : ∀ name, name ∈ listedOutputs s.parties ↔ name ∈ s.circuit.outputs.keys

theorem contains_iff {α : Type} {t : NameTable α} {name : String} :
    t.contains name = true ↔ name ∈ t.keys := by
  rw [NameTable.contains, List.contains_iff_mem]

theorem checkInputs_eq_ok {circuit : Circuit} {party : String} :
    ∀ {names seen : List String}, checkInputs circuit party seen names = .ok () ↔
      (∀ n ∈ names, n ∈ circuit.inputs.keys) ∧ names.Nodup ∧ ∀ n ∈ names, n ∉ seen
  | [], seen => by simp [checkInputs]
  | name :: names, seen => by
      unfold checkInputs
      rw [List.nodup_cons]
      split
      · rename_i habsent
        have hnot : name ∉ circuit.inputs.keys := fun h => by
          rw [contains_iff.mpr h] at habsent
          cases habsent
        constructor
        · intro h
          cases h
        · rintro ⟨h, _⟩
          exact absurd (h name (List.mem_cons_self ..)) hnot
      · rename_i hpresent
        have hname : name ∈ circuit.inputs.keys :=
          contains_iff.mp (Bool.not_eq_false _ ▸ hpresent)
        split
        · rename_i hseen
          constructor
          · intro h
            cases h
          · rintro ⟨_, _, h⟩
            exact absurd (List.contains_iff_mem.mp hseen) (h name (List.mem_cons_self ..))
        · rename_i hunseen
          have hnew : name ∉ seen := fun h => hunseen (List.contains_iff_mem.mpr h)
          rw [checkInputs_eq_ok]
          simp only [List.mem_cons, not_or, forall_eq_or_imp]
          constructor
          · rintro ⟨hmem, hnodup, hfresh⟩
            exact ⟨⟨hname, hmem⟩, ⟨fun h => (hfresh name h).1 rfl, hnodup⟩, hnew,
              fun n hn => (hfresh n hn).2⟩
          · rintro ⟨⟨_, hmem⟩, ⟨hhead, hnodup⟩, _, hfresh⟩
            exact ⟨hmem, hnodup, fun n hn => ⟨fun e => hhead (e ▸ hn), hfresh n hn⟩⟩

theorem checkOutputs_eq_ok {circuit : Circuit} {party : String} :
    ∀ {names : List String}, checkOutputs circuit party names = .ok () ↔
      ∀ n ∈ names, n ∈ circuit.outputs.keys
  | [] => by simp [checkOutputs]
  | name :: names => by
      unfold checkOutputs
      rw [List.forall_mem_cons]
      split
      · rename_i hpresent
        rw [checkOutputs_eq_ok]
        exact (and_iff_right (contains_iff.mp hpresent)).symm
      · rename_i habsent
        constructor
        · intro h
          cases h
        · rintro ⟨h, _⟩
          exact absurd (contains_iff.mpr h) habsent

theorem checkCovered_eq_ok {names listed : List String} {fault : String → SettingsError} :
    checkCovered names listed fault = .ok () ↔ ∀ n ∈ names, n ∈ listed := by
  unfold checkCovered
  split
  · rename_i name hfound
    have hmem := List.mem_of_find?_eq_some hfound
    have hmissing := List.find?_some hfound
    constructor
    · intro h
      cases h
    · intro h
      simp [h name hmem] at hmissing
  · rename_i hnone
    simp only [List.find?_eq_none, Bool.not_eq_true', Bool.not_eq_false, List.contains_iff_mem]
      at hnone
    exact ⟨fun _ => hnone, fun _ => rfl⟩

/-- The parties pass one after another when, with those that came before, no name and
no input comes twice and all that they list belongs to the circuit. -/
theorem checkParties_eq_ok {circuit : Circuit} :
    ∀ {ps : List Party} {names inputs : List String},
      checkParties circuit names inputs ps = .ok () ↔
        ((ps.map Party.name).Nodup ∧ ∀ p ∈ ps, p.name ∉ names) ∧
        ((listedInputs ps).Nodup ∧ ∀ n ∈ listedInputs ps, n ∉ inputs) ∧
        (∀ n ∈ listedInputs ps, n ∈ circuit.inputs.keys) ∧
        ∀ n ∈ listedOutputs ps, n ∈ circuit.outputs.keys
  | [], names, inputs => by simp [checkParties, listedInputs, listedOutputs]
  | p :: ps, names, inputs => by
      have hinputs : listedInputs (p :: ps) = p.inputs ++ listedInputs ps := List.flatMap_cons
      have houtputs : listedOutputs (p :: ps) = p.outputs ++ listedOutputs ps := List.flatMap_cons
      rw [hinputs, houtputs]
      unfold checkParties
      split
      · rename_i hseen
        constructor
        · intro h
          cases h
        · rintro ⟨⟨_, h⟩, _⟩
          exact absurd (List.contains_iff_mem.mp hseen) (h p (List.mem_cons_self ..))
      · rename_i hunseen
        have hnew : p.name ∉ names := fun h => hunseen (List.contains_iff_mem.mpr h)
        simp only [check_bind_eq_ok, checkInputs_eq_ok, checkOutputs_eq_ok, checkParties_eq_ok,
          List.map_cons, List.nodup_cons, List.nodup_append, List.mem_append, List.mem_cons,
          List.mem_map, forall_eq, or_imp, forall_and, not_or]
        constructor
        · rintro ⟨⟨hin, hnd, hfresh⟩, hout, ⟨hnames, hname, hbefore⟩, ⟨hnd', hown, hfresh'⟩, hin',
            hout'⟩
          refine ⟨⟨⟨?_, hnames⟩, hnew, hbefore⟩, ⟨⟨hnd, hnd', ?_⟩, hfresh, hfresh'⟩, ⟨hin, hin'⟩,
            hout, hout'⟩
          · rintro ⟨q, hq, he⟩
            exact hname q hq he
          · intro a ha b hb he
            exact hown b hb (he ▸ ha)
        · rintro ⟨⟨⟨hname, hnames⟩, _, hbefore⟩, ⟨⟨hnd, hnd', hapart⟩, hfresh, hfresh'⟩,
            ⟨hin, hin'⟩, hout, hout'⟩
          refine ⟨⟨hin, hnd, hfresh⟩, hout, ⟨hnames, ?_, hbefore⟩, ⟨hnd', ?_, hfresh'⟩, hin',
            hout'⟩
          · intro q hq he
            exact hname ⟨q, hq, he⟩
          · intro n hn hmem
            exact hapart n hmem n hn rfl

/-- The check accepts the parties that fit the circuit. -/
theorem check_eq_ok_iff {s : Setup} : s.check = .ok () ↔ s.Fits := by
  unfold check
  split
  · rename_i hfew
    constructor
    · intro h
      cases h
    · intro h
      exact absurd h.two_le (Nat.not_le_of_lt hfew)
  · rename_i hmany
    simp only [check_bind_eq_ok, checkParties_eq_ok, checkCovered_eq_ok]
    constructor
    · rintro ⟨⟨⟨hnames, _⟩, ⟨hnodup, _⟩, hin, hout⟩, hcovered, hcovered'⟩
      exact ⟨by omega, hnames, hnodup, fun n => ⟨hin n, hcovered n⟩,
        fun n => ⟨hout n, hcovered' n⟩⟩
    · intro h
      refine ⟨⟨⟨h.nodup_names, fun p _ => List.not_mem_nil⟩,
        ⟨h.nodup_inputs, fun n _ => List.not_mem_nil⟩, fun n => (h.mem_inputs n).mp,
        fun n => (h.mem_outputs n).mp⟩, fun n => (h.mem_inputs n).mpr,
        fun n => (h.mem_outputs n).mpr⟩

end Setup

end JointCircuit

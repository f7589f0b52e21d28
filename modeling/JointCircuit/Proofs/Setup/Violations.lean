import JointCircuit.Proofs.NameTable
import JointCircuit.Proofs.Setup.Fits
import Mathlib.Data.List.Nodup

/-!
# What the check of a setup reports

The check goes through the parties in order and through the lists of each.  It reports
the first place at which a party or a name does not fit what came before.
`Setup.Violates` says without an algorithm what is reported, with one case for each error:
every case holds its place, the parties and names in front of it, and that these fit.
Behind the parties come the inputs and the outputs that no party lists, and of these the
least name is reported.

`Setup.check_exact` says that the check accepts the setups whose parties share out the inputs
of the circuit, and otherwise reports the first violation.
-/

namespace JointCircuit

theorem listedInputs_append (ps qs : List Party) :
    listedInputs (ps ++ qs) = listedInputs ps ++ listedInputs qs := List.flatMap_append

theorem mem_listedInputs_reverse {ps : List Party} {name : String} :
    name ∈ listedInputs ps.reverse ↔ name ∈ listedInputs ps := by
  simp only [listedInputs, List.mem_flatMap, List.mem_reverse]

theorem listedOutputs_append (ps qs : List Party) :
    listedOutputs (ps ++ qs) = listedOutputs ps ++ listedOutputs qs := List.flatMap_append

namespace Circuit

/-- The names are inputs of the circuit, none of them listed twice. -/
structure ListsInputs (circuit : Circuit) (names : List String) : Prop where
  nodup : names.Nodup
  known : ∀ name ∈ names, name ∈ circuit.inputs.keys

/-- The parties have names of their own, they list inputs of the circuit, none of them twice,
and outputs of the circuit. -/
structure Admits (circuit : Circuit) (parties : List Party) : Prop where
  nodup_names : (parties.map Party.name).Nodup
  inputs : circuit.ListsInputs (listedInputs parties)
  outputs : ∀ name ∈ listedOutputs parties, name ∈ circuit.outputs.keys

end Circuit

namespace Setup

/-! ## Violations -/

/-- Going through the parties one comes to `q`, as the parties before it are admitted. -/
structure Reaches (s : Setup) (before : List Party) (q : Party) : Prop where
  two_le : 2 ≤ s.parties.length
  split : ∃ after, s.parties = before ++ q :: after
  admits : s.circuit.Admits before

/-- The parties are admitted, and there are at least two. -/
structure Passes (s : Setup) : Prop where
  two_le : 2 ≤ s.parties.length
  admits : s.circuit.Admits s.parties

/-- The first violation of a setup. -/
inductive Violates (s : Setup) : SettingsError → Prop where
  | tooFewParties : s.parties.length < 2 → Violates s (.tooFewParties s.parties.length)
  | duplicateParty {before : List Party} {q : Party} : s.Reaches before q →
      q.name ∈ before.map Party.name → Violates s (.duplicateParty q.name)
  | unknownInput {before : List Party} {q : Party} {done rest : List String} {name : String} :
      s.Reaches before q → q.name ∉ before.map Party.name → q.inputs = done ++ name :: rest →
      s.circuit.ListsInputs (listedInputs before ++ done) → name ∉ s.circuit.inputs.keys →
      Violates s (.unknownInput q.name name)
  | duplicateInput {before : List Party} {q : Party} {done rest : List String} {name : String} :
      s.Reaches before q → q.name ∉ before.map Party.name → q.inputs = done ++ name :: rest →
      s.circuit.ListsInputs (listedInputs before ++ done) → name ∈ s.circuit.inputs.keys →
      name ∈ listedInputs before ++ done → Violates s (.duplicateInput name)
  | unknownOutput {before : List Party} {q : Party} {done rest : List String} {name : String} :
      s.Reaches before q → q.name ∉ before.map Party.name →
      s.circuit.ListsInputs (listedInputs before ++ q.inputs) → q.outputs = done ++ name :: rest →
      (∀ o ∈ done, o ∈ s.circuit.outputs.keys) → name ∉ s.circuit.outputs.keys →
      Violates s (.unknownOutput q.name name)
  | unassignedInput {name : String} : s.Passes →
      LeastMissing s.circuit.inputs.keys (listedInputs s.parties) name →
      Violates s (.unassignedInput name)
  | undeclaredOutput {name : String} : s.Passes →
      (∀ i ∈ s.circuit.inputs.keys, i ∈ listedInputs s.parties) →
      LeastMissing s.circuit.outputs.keys (listedOutputs s.parties) name →
      Violates s (.undeclaredOutput name)

/-! ## Rows of checks -/

section

variable {circuit : Circuit} {party : String}

theorem checkInputs_append :
    ∀ {ns ms seen : List String}, checkInputs circuit party seen (ns ++ ms) =
      checkInputs circuit party seen ns >>= fun _ =>
        checkInputs circuit party (ns.reverse ++ seen) ms
  | [], _, _ => rfl
  | n :: ns, ms, seen => by
      rw [List.cons_append, checkInputs, checkInputs]
      split
      · rfl
      split
      · rfl
      rw [checkInputs_append, List.reverse_cons, List.append_assoc]
      rfl

theorem checkOutputs_append :
    ∀ {ns ms : List String}, checkOutputs circuit party (ns ++ ms) =
      checkOutputs circuit party ns >>= fun _ => checkOutputs circuit party ms
  | [], _ => rfl
  | n :: ns, ms => by
      rw [List.cons_append, checkOutputs, checkOutputs]
      split
      · exact checkOutputs_append
      · rfl

theorem checkParties_append :
    ∀ {ps qs : List Party} {names inputs : List String},
      checkParties circuit names inputs (ps ++ qs) =
        checkParties circuit names inputs ps >>= fun _ =>
          checkParties circuit (ps.reverse.map Party.name ++ names)
            (listedInputs ps.reverse ++ inputs) qs
  | [], _, _, _ => rfl
  | p :: ps, qs, names, inputs => by
      rw [List.cons_append, checkParties, checkParties]
      split
      · rfl
      have hlast : listedInputs [p] = p.inputs := List.append_nil _
      simp only [checkParties_append, bind_assoc, List.reverse_cons, List.map_append,
        listedInputs_append, hlast, List.append_assoc, List.map_singleton, List.singleton_append]

/-- The parties of a row pass when they are admitted. -/
theorem checkParties_eq_ok_iff {ps : List Party} :
    checkParties circuit [] [] ps = .ok () ↔ circuit.Admits ps := by
  rw [checkParties_eq_ok]
  constructor
  · rintro ⟨⟨hnames, _⟩, ⟨hnodup, _⟩, hin, hout⟩
    exact ⟨hnames, ⟨hnodup, hin⟩, hout⟩
  · intro h
    exact ⟨⟨h.nodup_names, fun _ _ => List.not_mem_nil⟩,
      ⟨h.inputs.nodup, fun _ _ => List.not_mem_nil⟩, h.inputs.known, h.outputs⟩

/-- Inputs behind those of other parties pass when the two rows together are listed. -/
theorem checkInputs_of_lists {before : List Party} {names : List String}
    (h : circuit.ListsInputs (listedInputs before ++ names)) :
    checkInputs circuit party (listedInputs before.reverse) names = .ok () := by
  obtain ⟨_, hnodup, hapart⟩ := List.nodup_append.mp h.nodup
  rw [checkInputs_eq_ok]
  refine ⟨fun n hn => h.known n (List.mem_append_right _ hn), hnodup, fun n hn hseen => ?_⟩
  exact hapart n (mem_listedInputs_reverse.mp hseen) n hn rfl

theorem checkCovered_of_leastMissing {α : Type} {t : NameTable α} {listed : List String}
    {fault : String → SettingsError} {name : String} (h : LeastMissing t.keys listed name) :
    checkCovered t.keys listed fault = .error (fault name) := by
  have htest : ∀ n, (!listed.contains n) = true ↔ n ∉ listed := by
    intro n
    rw [Bool.not_eq_true', Bool.eq_false_iff, ne_eq, List.contains_iff_mem]
  rw [checkCovered, (NameTable.find?_eq_some_iff_leastMissing htest).mpr h]

end

/-! ## What is reported -/

section

variable {s : Setup} {before : List Party} {q : Party}

/-- The check comes to a party when those before it are admitted. -/
theorem Reaches.check_eq (h : s.Reaches before q) {e : SettingsError}
    (he : ∀ after, checkParties s.circuit (before.reverse.map Party.name)
      (listedInputs before.reverse) (q :: after) = .error e) : s.check = .error e := by
  obtain ⟨after, hsplit⟩ := h.split
  have hparties : checkParties s.circuit [] [] s.parties = .error e := by
    rw [hsplit, checkParties_append, checkParties_eq_ok_iff.mpr h.admits, ok_bind,
      List.append_nil, List.append_nil, he after]
  rw [check, if_neg (Nat.not_lt.mpr h.two_le), hparties, error_bind]

theorem contains_names (before : List Party) (name : String) :
    (before.reverse.map Party.name).contains name = true ↔ name ∈ before.map Party.name := by
  rw [List.contains_iff_mem, List.map_reverse, List.mem_reverse]

/-- A party with a name of its own is checked input by input. -/
theorem Reaches.check_inputs (h : s.Reaches before q) (hname : q.name ∉ before.map Party.name)
    {e : SettingsError}
    (he : checkInputs s.circuit q.name (listedInputs before.reverse) q.inputs = .error e) :
    s.check = .error e := by
  refine h.check_eq fun after => ?_
  rw [checkParties, if_neg fun hseen => hname ((contains_names before q.name).mp hseen), he,
    error_bind]

theorem Reaches.check_outputs (h : s.Reaches before q) (hname : q.name ∉ before.map Party.name)
    (hinputs : s.circuit.ListsInputs (listedInputs before ++ q.inputs)) {e : SettingsError}
    (he : checkOutputs s.circuit q.name q.outputs = .error e) : s.check = .error e := by
  refine h.check_eq fun after => ?_
  rw [checkParties, if_neg fun hseen => hname ((contains_names before q.name).mp hseen),
    checkInputs_of_lists hinputs, ok_bind, he, error_bind]

theorem Passes.check_eq (h : s.Passes) : s.check =
    checkCovered s.circuit.inputs.keys (listedInputs s.parties) .unassignedInput >>= fun _ =>
      checkCovered s.circuit.outputs.keys (listedOutputs s.parties) .undeclaredOutput := by
  rw [check, if_neg (Nat.not_lt.mpr h.two_le), checkParties_eq_ok_iff.mpr h.admits, ok_bind]
  rfl

/-- A violation is what the check reports. -/
theorem Violates.check_eq {e : SettingsError} (h : s.Violates e) : s.check = .error e := by
  cases h with
  | tooFewParties hfew => rw [check, if_pos hfew]
  | @duplicateParty before q hreach hname =>
      refine hreach.check_eq fun after => ?_
      rw [checkParties, if_pos ((contains_names before q.name).mpr hname)]
  | unknownInput hreach hname hsplit hdone hunknown =>
      refine hreach.check_inputs hname ?_
      rw [hsplit, checkInputs_append, checkInputs_of_lists hdone, ok_bind, checkInputs, if_pos]
      rwa [← Bool.not_eq_true, contains_iff]
  | @duplicateInput before q done rest name hreach hname hsplit hdone hknown hseen =>
      refine hreach.check_inputs hname ?_
      rw [hsplit, checkInputs_append, checkInputs_of_lists hdone, ok_bind, checkInputs, if_neg,
        if_pos]
      · rw [List.contains_iff_mem, List.mem_append, List.mem_reverse, mem_listedInputs_reverse]
        exact (List.mem_append.mp hseen).symm
      · rw [Bool.not_eq_false, contains_iff]
        exact hknown
  | unknownOutput hreach hname hinputs hsplit hdone hunknown =>
      refine hreach.check_outputs hname hinputs ?_
      rw [hsplit, checkOutputs_append, checkOutputs_eq_ok.mpr hdone, ok_bind, checkOutputs, if_neg]
      rwa [contains_iff]
  | unassignedInput hpasses hleast =>
      rw [hpasses.check_eq, checkCovered_of_leastMissing hleast, error_bind]
  | undeclaredOutput hpasses hcovered hleast =>
      rw [hpasses.check_eq, checkCovered_eq_ok.mpr hcovered, ok_bind,
        checkCovered_of_leastMissing hleast]

end

end Setup

/-! ## One or the other -/

namespace Circuit

variable {circuit : Circuit}

theorem ListsInputs.concat {names : List String} (h : circuit.ListsInputs names) {name : String}
    (hknown : name ∈ circuit.inputs.keys) (hnew : name ∉ names) :
    circuit.ListsInputs (names ++ [name]) := by
  refine ⟨?_, fun n hn => ?_⟩
  · rw [← List.concat_eq_append]
    exact List.Nodup.concat hnew h.nodup
  · rcases List.mem_append.mp hn with hn | hn
    · exact h.known n hn
    · rwa [List.mem_singleton.mp hn]

theorem Admits.concat {before : List Party} (h : circuit.Admits before) {q : Party}
    (hname : q.name ∉ before.map Party.name)
    (hinputs : circuit.ListsInputs (listedInputs before ++ q.inputs))
    (houtputs : ∀ o ∈ q.outputs, o ∈ circuit.outputs.keys) : circuit.Admits (before ++ [q]) := by
  have hin : listedInputs [q] = q.inputs := List.append_nil _
  have hout : listedOutputs [q] = q.outputs := List.append_nil _
  refine ⟨?_, ?_, ?_⟩
  · rw [List.map_append, List.map_singleton, ← List.concat_eq_append]
    exact List.Nodup.concat hname h.nodup_names
  · rwa [listedInputs_append, hin]
  · rw [listedOutputs_append, hout, List.forall_mem_append]
    exact ⟨h.outputs, houtputs⟩

end Circuit

namespace Setup

variable {s : Setup} {before : List Party} {q : Party}

/-- A list of inputs that does not fit the parties before has a violation. -/
theorem Reaches.violates_inputs (h : s.Reaches before q) (hname : q.name ∉ before.map Party.name)
    (hbad : ¬ s.circuit.ListsInputs (listedInputs before ++ q.inputs)) : ∃ e, s.Violates e := by
  have hnil : s.circuit.ListsInputs (listedInputs before ++ []) := by
    rw [List.append_nil]
    exact h.admits.inputs
  obtain ⟨done, name, rest, hsplit, hdone, hbad⟩ :=
    exists_first_bad (P := fun names => s.circuit.ListsInputs (listedInputs before ++ names))
      hnil hbad
  by_cases hknown : name ∈ s.circuit.inputs.keys
  · by_cases hseen : name ∈ listedInputs before ++ done
    · exact ⟨_, .duplicateInput h hname hsplit hdone hknown hseen⟩
    · rw [← List.append_assoc] at hbad
      exact absurd (hdone.concat hknown hseen) hbad
  · exact ⟨_, .unknownInput h hname hsplit hdone hknown⟩

/-- A party with which a row is no longer admitted has a violation. -/
theorem Reaches.exists_violates (h : s.Reaches before q)
    (hbad : ¬ s.circuit.Admits (before ++ [q])) : ∃ e, s.Violates e := by
  by_cases hname : q.name ∈ before.map Party.name
  · exact ⟨_, .duplicateParty h hname⟩
  by_cases hinputs : s.circuit.ListsInputs (listedInputs before ++ q.inputs)
  · by_cases houtputs : ∀ o ∈ q.outputs, o ∈ s.circuit.outputs.keys
    · exact absurd (h.admits.concat hname hinputs houtputs) hbad
    · obtain ⟨done, name, rest, hsplit, hdone, hunknown⟩ := exists_first_not houtputs
      exact ⟨_, .unknownOutput h hname hinputs hsplit hdone hunknown⟩
  · exact h.violates_inputs hname hinputs

theorem Passes.fits_or_violates (h : s.Passes) : s.Fits ∨ ∃ e, s.Violates e := by
  by_cases hinputs : ∀ i ∈ s.circuit.inputs.keys, i ∈ listedInputs s.parties
  · by_cases houtputs : ∀ o ∈ s.circuit.outputs.keys, o ∈ listedOutputs s.parties
    · exact .inl ⟨h.two_le, h.admits.nodup_names, h.admits.inputs.nodup,
        fun i => ⟨h.admits.inputs.known i, hinputs i⟩, fun o => ⟨h.admits.outputs o, houtputs o⟩⟩
    · obtain ⟨name, hleast⟩ := NameTable.exists_leastMissing houtputs
      exact .inr ⟨_, .undeclaredOutput h hinputs hleast⟩
  · obtain ⟨name, hleast⟩ := NameTable.exists_leastMissing hinputs
    exact .inr ⟨_, .unassignedInput h hleast⟩

theorem fits_or_violates (s : Setup) : s.Fits ∨ ∃ e, s.Violates e := by
  by_cases htwo : 2 ≤ s.parties.length
  · by_cases hadmits : s.circuit.Admits s.parties
    · exact Passes.fits_or_violates ⟨htwo, hadmits⟩
    · have hnil : s.circuit.Admits [] :=
        ⟨List.nodup_nil, ⟨List.nodup_nil, fun _ hn => absurd hn List.not_mem_nil⟩,
          fun _ hn => absurd hn List.not_mem_nil⟩
      obtain ⟨before, q, after, hsplit, hbefore, hbad⟩ := exists_first_bad hnil hadmits
      exact .inr (Reaches.exists_violates ⟨htwo, ⟨after, hsplit⟩, hbefore⟩ hbad)
  · exact .inr ⟨_, .tooFewParties (Nat.lt_of_not_le htwo)⟩

/-- The parties that fit are those that share out the inputs. -/
theorem fits_iff : s.Fits ↔ 2 ≤ s.parties.length ∧ (s.parties.map Party.name).Nodup ∧
    (listedInputs s.parties).Nodup ∧ (listedInputs s.parties).Perm s.circuit.inputs.keys ∧
    ∀ name, name ∈ listedOutputs s.parties ↔ name ∈ s.circuit.outputs.keys := by
  constructor
  · intro h
    exact ⟨h.two_le, h.nodup_names, h.nodup_inputs,
      (List.perm_ext_iff_of_nodup h.nodup_inputs s.circuit.inputs.nodup_keys).mpr h.mem_inputs,
      h.mem_outputs⟩
  · rintro ⟨htwo, hnames, hnodup, hperm, houtputs⟩
    exact ⟨htwo, hnames, hnodup, fun _ => hperm.mem_iff, houtputs⟩

/-- The check accepts a setup when there are at least two parties, under distinct names,
whose lists of inputs together are the inputs of the circuit, each once, and whose lists of
outputs have the outputs of the circuit.  Otherwise it reports the first violation. -/
theorem check_exact (s : Setup) :
    (s.check = .ok () ↔ 2 ≤ s.parties.length ∧ (s.parties.map Party.name).Nodup ∧
      (listedInputs s.parties).Nodup ∧ (listedInputs s.parties).Perm s.circuit.inputs.keys ∧
      ∀ name, name ∈ listedOutputs s.parties ↔ name ∈ s.circuit.outputs.keys) ∧
    ∀ e, s.check = .error e ↔ s.Violates e := by
  rw [check_eq_ok_iff, fits_iff]
  refine ⟨Iff.rfl, (ok_and_error_iff (fun hfits => ⟨(), check_eq_ok_iff.mpr hfits⟩)
    (fun _ => Violates.check_eq) s.fits_or_violates).2⟩

end Setup

end JointCircuit

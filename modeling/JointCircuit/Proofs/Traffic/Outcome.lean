import JointCircuit.Proofs.Traffic.Computing
import Mathlib.Algebra.Order.BigOperators.Group.Finset
import Mathlib.Data.Fintype.Basic

/-!
# The outcome of a computation

A computation of all parties can always come to rest (`Traffic.Computing.exists_quiet`):
when everything on its way is delivered and then every worker runs, every session sends its
next stream or has ended.

So under every schedule the parties can only end with the evaluation of the setup on their
values, and at rest they have (`Traffic.computation_correct`).
-/

namespace JointCircuit

namespace Traffic

variable {c : Compiled} {k : Computation c}

/-! ## Coming to rest -/

/-- The number of messages on their way to a session. -/
def load (t : Traffic (Fin c.parties.length)) : Nat :=
  ∑ i, ∑ j, (t.flight i (t.session j).ownName).length

theorem steps_append {ι : Type} [DecidableEq ι] (t : Traffic ι) (ms ms' : List (Move ι)) :
    t.steps (ms ++ ms') = (t.steps ms).steps ms' := by
  induction ms generalizing t with
  | nil => rfl
  | cons m ms ih => exact ih (t.step m)

namespace Computing

variable {t : Traffic (Fin c.parties.length)} {i j : Fin c.parties.length}

/-- A delivery takes one message off. -/
theorem load_deliver (h : Computing k t) (hflight : t.flight i (t.session j).ownName ≠ []) :
    (t.deliver i j).load < t.load := by
  obtain ⟨m, ms, hcons⟩ := List.exists_cons_of_ne_nil hflight
  have hname : ∀ b, ((t.deliver i j).session b).ownName = (t.session b).ownName := fun b =>
    ((h.deliver i j).ownName_eq b).trans (h.ownName_eq b).symm
  have hdeliver : ∀ a name, (t.deliver i j).flight a name =
      if a = i ∧ name = (t.session j).ownName then ms else t.flight a name := by
    intro a name
    rw [Traffic.deliver]
    simp only [hcons]
    by_cases ha : a = i
    · subst ha
      by_cases hn : name = (t.session j).ownName <;> simp [hn]
    · simp [ha]
  have hle : ∀ a b, ((t.deliver i j).flight a (t.session b).ownName).length ≤
      (t.flight a (t.session b).ownName).length := by
    intro a b
    rw [hdeliver]
    split
    · rename_i heq
      rw [heq.1, heq.2, hcons]
      exact Nat.le_succ _
    · exact Nat.le_refl _
  have hlt : ((t.deliver i j).flight i (t.session j).ownName).length <
      (t.flight i (t.session j).ownName).length := by
    rw [hdeliver, if_pos ⟨rfl, rfl⟩, hcons]
    exact Nat.lt_succ_self _
  simp only [load, hname]
  exact Finset.sum_lt_sum (fun a _ => Finset.sum_le_sum fun b _ => hle a b)
    ⟨i, Finset.mem_univ i, Finset.sum_lt_sum (fun b _ => hle i b) ⟨j, Finset.mem_univ j, hlt⟩⟩

/-- Everything that is on its way can be delivered, and no session moves. -/
theorem drain (h : Computing k t) : ∃ ms,
    (∀ i j, (t.steps ms).flight i ((t.steps ms).session j).ownName = []) ∧
      ∀ {a : Fin c.parties.length} {sent : Nat}, k.Position (t.session a) sent →
        k.Position ((t.steps ms).session a) sent := by
  induction hload : t.load using Nat.strong_induction_on generalizing t with
  | _ load ih =>
      by_cases hempty : ∀ i j, t.flight i (t.session j).ownName = []
      · exact ⟨[], hempty, fun hposition => hposition⟩
      · obtain ⟨i, hempty⟩ := not_forall.mp hempty
        obtain ⟨j, hflight⟩ := not_forall.mp hempty
        obtain ⟨ms, hdrained, hkeep⟩ := ih _ (hload ▸ h.load_deliver hflight) (h.deliver i j) rfl
        exact ⟨.deliver i j :: ms, hdrained, fun hposition =>
          hkeep (h.deliver_position i j hposition)⟩

/-- Workers run one after another, each on its own. -/
theorem session_runs (t : Traffic (Fin c.parties.length)) (a : Fin c.parties.length) :
    ∀ is : List (Fin c.parties.length), is.Nodup →
      (t.steps (is.map .run)).session a = if a ∈ is then (t.session a).run else t.session a := by
  intro is
  induction is generalizing t with
  | nil => exact fun _ => rfl
  | cons i is ih =>
      intro hnodup
      obtain ⟨hi, hnodup⟩ := List.nodup_cons.mp hnodup
      rw [List.map_cons, Traffic.steps, ih _ hnodup, Traffic.step]
      by_cases ha : a = i
      · subst ha
        simp [hi]
      · rw [run_session_of_ne t ha]
        simp [ha]

/-- A session of which all streams are sent has ended. -/
theorem run_ended {s : Session} {sent : Nat} (h : k.Position s sent) (hend : 4 ≤ sent) :
    s.run = s := by
  cases h with
  | ended worker => rw [Session.run, worker]
  | _ => exact absurd hend (by decide)

/-- A computation of all parties can come to rest. -/
theorem exists_quiet (h : Computing k t) : ∃ ms, (t.steps ms).Quiet := by
  -- in each round everything is delivered, and then all workers run
  have hround : ∀ n ≤ 4, ∃ ms, ∀ i, ∃ sent,
      n ≤ sent ∧ k.Position ((t.steps ms).session i) sent := by
    intro n
    induction n with
    | zero =>
        refine fun _ => ⟨[], fun i => ?_⟩
        obtain ⟨sent, hposition⟩ := h.position i
        exact ⟨sent, Nat.zero_le _, hposition⟩
    | succ n ih =>
        intro hn
        obtain ⟨ms, hall⟩ := ih (by omega)
        obtain ⟨ms', hempty, hkeep⟩ := (h.steps ms).drain
        refine ⟨ms ++ (ms' ++ (List.finRange c.parties.length).map .run), fun i => ?_⟩
        rw [steps_append, steps_append, session_runs _ i _ (List.nodup_finRange _),
          if_pos (List.mem_finRange i)]
        refine ((h.steps ms).steps ms').advance hempty (by omega) (fun j => ?_) i
        obtain ⟨sent, hle, hposition⟩ := hall j
        exact ⟨sent, hle, hkeep hposition⟩
  obtain ⟨ms, hall⟩ := hround 4 (Nat.le_refl 4)
  obtain ⟨ms', hempty, hkeep⟩ := (h.steps ms).drain
  refine ⟨ms ++ ms', ?_⟩
  rw [steps_append]
  refine ⟨hempty, fun i => ?_⟩
  obtain ⟨sent, hle, hposition⟩ := hall i
  exact run_ended (hkeep hposition) hle

end Computing

/-- The parties of a compiled setup that run the plaintext engine on accepted values all get
the evaluation of the setup, whatever the order in which workers run and messages are cut
and delivered.  No session ever has another result than what its party sees of it, and
when traffic has come to rest every session has this result. -/
theorem computation_correct {s : Setup} {n : Netlist} {ins : List Slot}
    (hcompile : s.compile = .ok c) (hparse : Netlist.parse s.circuit.text = .ok n)
    (hins : Slot.Ranked s.circuit.inputs n.inputWidths ins)
    (hfit : ∀ t ∈ ins, t.wire + t.width ≤ maxIndex) (hmost : c.parties.length ≤ maxIndex)
    {inputs : Fin c.parties.length → Values}
    (haccept : ∀ i, ∃ bits, c.encodeInput (c.parties.get i).name (inputs i) = .ok bits) :
    ∃ (outcome : Except EncodingError Results) (session : Fin c.parties.length → Session),
      c.eval (List.ofFn inputs) = outcome.mapError .encoding ∧
      (∀ i, Session.start c (c.parties.get i).name (inputs i) Plaintext.program (fun _ => none) =
        .ok (session i)) ∧
      ∀ schedule i,
        ((((start session).steps schedule).session i).result = none ∨
          (((start session).steps schedule).session i).result = some (c.shareOf i outcome)) ∧
        (((start session).steps schedule).Quiet →
          (((start session).steps schedule).session i).result = some (c.shareOf i outcome)) := by
  obtain ⟨n', ins', outs, p, w, h⟩ := Setup.compile_eq_ok_iff.mp hcompile
  obtain rfl : n = n' := Except.ok.inj (hparse.symm.trans h.parse)
  obtain rfl : ins = ins' := hins.unique h.inputs
  obtain ⟨k, hbits, heval⟩ := h.computation hfit haccept
  have hleast : 2 ≤ c.parties.length := h.parties ▸ h.fits.two_le
  choose session hsession using fun i => start_eq_ok k.names hleast hmost i (haccept i)
  refine ⟨c.decodeOutput k.outputs, session, heval, hsession, fun schedule i => ?_⟩
  have hcomputing := (start_computing hbits hsession).steps schedule
  exact ⟨hcomputing.result i, fun hquiet => hcomputing.settled hquiet i⟩

/-- Both parties see the output `u`, and only the second one sees `v`, which is in the
evaluation of the setup. -/
theorem computation_correct_rewriting : ∃ c, rewritingSetup.compile = .ok c ∧
    ∃ (session : Fin c.parties.length → Session) (schedule : List (Move _)),
      (∀ i : Fin c.parties.length,
        Session.start c (c.parties.get i).name (rewritingValues.getD i .empty) Plaintext.program
          (fun _ => none) = .ok (session i)) ∧
      ((start session).steps schedule).Quiet ∧
      (∃ all, c.eval rewritingValues = .ok all ∧ all.find? "v" = some 0) ∧
      ∀ i, ∃ results, (((start session).steps schedule).session i).result = some (.ok results) ∧
        results.find? "u" = some 3 ∧
        results.find? "v" = if i.val = 0 then none else some 0 := by
  obtain ⟨p, w, c, h⟩ := rewritingSetup_compiles
  have hc : rewritingSetup.compile = .ok c := Setup.compile_eq_ok_iff.mpr ⟨_, _, _, p, w, h⟩
  have hcount : c.parties.length = 2 := by rw [h.parties]; rfl
  have hindex : ∀ i : Fin c.parties.length, i.val = 0 ∨ i.val = 1 := by omega
  have haccept : ∀ i : Fin c.parties.length,
      ∃ bits, c.encodeInput (c.parties.get i).name (rewritingValues.getD i .empty) = .ok bits := by
    intro i
    obtain ⟨q, hq, hsame⟩ : ∃ q, rewritingSetup.parties[i.val]? = some q ∧ c.parties.get i = q := by
      rw [← h.parties]
      exact ⟨_, List.getElem?_eq_getElem i.isLt, rfl⟩
    rw [hsame, h.encodeInput_eq (List.mem_of_getElem? hq)]
    rcases hindex i with hi | hi <;> rw [hi] at hq ⊢ <;> cases hq
    · exact ⟨[true], rfl⟩
    · exact ⟨[false, true], rfl⟩
  have hvalues : (List.ofFn fun i : Fin c.parties.length => rewritingValues.getD i .empty) =
      rewritingValues := by
    refine List.ext_getElem (by rw [List.length_ofFn, hcount]; rfl) fun i _ hi => ?_
    rw [List.getElem_ofFn, List.getD_eq_getElem?_getD, List.getElem?_eq_getElem hi,
      Option.getD_some]
  obtain ⟨outcome, session, heval, hstart, hall⟩ :=
    computation_correct hc h.parse h.inputs (by decide) (by rw [hcount]; decide) haccept
  obtain ⟨k, hbits, _⟩ := h.computation (by decide) haccept
  obtain ⟨schedule, hquiet⟩ := (start_computing hbits hstart).exists_quiet
  rw [hvalues] at heval
  -- the value of an output in the evaluation, and in what a party sees of it
  have hvalue : (rewritingSetup.compile.toOption.bind fun c =>
      (c.eval rewritingValues).toOption.bind fun r => r.find? "v") = some 0 := by
    decide +kernel
  have hshares : ∀ i < 2, (rewritingSetup.compile.toOption.bind fun c =>
      (c.eval rewritingValues).toOption.bind fun r =>
        (c.shareOf i (.ok r)).toOption.map fun results =>
          (results.find? "u", results.find? "v")) =
      some (some 3, if i = 0 then none else some 0) := by
    decide +kernel
  rw [hc, Except.toOption, Option.bind_some, heval] at hvalue
  cases outcome with
  | error e => cases hvalue
  | ok r =>
      refine ⟨c, hc, session, schedule, hstart, hquiet, ⟨r, heval, hvalue⟩, fun i => ?_⟩
      have hshare := hshares i (by omega)
      rw [hc, Except.toOption, Option.bind_some, heval] at hshare
      rw [(hall schedule i).2 hquiet]
      exact ⟨_, rfl, Prod.mk.inj (Option.some.inj hshare)⟩

end Traffic

end JointCircuit

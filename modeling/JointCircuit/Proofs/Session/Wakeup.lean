import JointCircuit.Proofs.Session.Rest
import JointCircuit.Proofs.Session.Termination
import JointCircuit.Proofs.Session.Receipts

/-!
# What wakes a worker

A worker that waits has receives that are not complete, for fingerprints or for bytes of its
engine (`Worker.wants`).  After a run each of them asks for more than its queue holds
(`Session.Stalled.lacks`), whatever came before it was issued, and although other receives
may have taken bytes off the same queue in between.  A run changes nothing until new bytes
come into one of these queues (`Session.Stalled.steps`).

A run tries all receives.  That it is enough to notify those whose queue got bytes is the subject
of `Watched`, and the last theorem puts the two together.
-/

namespace JointCircuit

namespace Session

variable {s : Session}

theorem Stalled.proceed?_eq_none (h : s.Stalled) : s.proceed? = none := by
  rw [proceed?]
  cases h with
  | greeting worker lacks wait => simp only [worker, wait]
  | waiting worker lacks wait => simp only [worker, wait]
  | ended worker => simp only [worker]

theorem Stalled.lacks (h : s.Stalled) : ∀ r ∈ s.worker.wants, s.Lacks r := by
  intro r hr
  cases h with
  | greeting worker lacks wait =>
      rw [worker, mem_wants_greeting] at hr
      obtain ⟨g, hg, hopen, rfl⟩ := hr
      exact lacks g hg hopen
  | waiting worker lacks wait =>
      rw [worker, mem_wants_waiting] at hr
      obtain ⟨q, hq, rfl⟩ := hr
      exact lacks q hq
  | ended worker =>
      rw [worker] at hr
      exact absurd hr List.not_mem_nil

/-! ## Until bytes come -/

/-- A worker goes on waiting as long as no queue that it waits for gets longer. -/
theorem Stalled.of_queues {s' : Session} (h : s.Stalled) (hworker : s'.worker = s.worker)
    (hcompiled : s'.compiled = s.compiled)
    (hqueue : ∀ r ∈ s.worker.wants,
      (s'.mailbox.queue r.peer r.tag).length ≤ (s.mailbox.queue r.peer r.tag).length) :
    s'.Stalled := by
  have hlacks : ∀ r ∈ s.worker.wants, s'.Lacks r :=
    fun r hr => (h.lacks r hr).of_queue_le (hqueue r hr)
  cases h with
  | greeting worker _ wait =>
      rw [worker] at hworker hlacks
      refine .greeting hworker (fun g hg hopen => ?_) ?_
      · exact hlacks _ (mem_wants_greeting.mpr ⟨g, hg, hopen, rfl⟩)
      · rwa [handshake, isEager, hcompiled]
  | waiting worker _ wait =>
      rw [worker] at hworker hlacks
      exact .waiting hworker (fun r hr => hlacks _ (mem_wants_waiting.mpr ⟨r, hr, rfl⟩)) wait
  | ended worker => exact .ended (hworker.trans worker)

/-- An event that brings nothing for a receive that is not complete wakes no worker. -/
theorem Stalled.step (h : s.Stalled) {e : Event}
    (hnone : ∀ r ∈ s.worker.wants, s.arrival r.peer r.tag e = []) :
    (s.step e).2.Stalled ∧
      ((s.step e).2.worker = s.worker ∨ (s.step e).2.worker = .ended) := by
  by_cases hrun : e = .run
  · rw [hrun, Session.step, h.run_eq]
    exact ⟨h, .inl rfl⟩
  · rcases s.step_beside hrun with hended | ⟨hworker, hcompiled, hqueue⟩
    · exact ⟨.ended hended, .inr hended⟩
    · refine ⟨h.of_queues hworker hcompiled fun r hr => ?_, .inl hworker⟩
      have hshort := hqueue r.peer r.tag
      rwa [hnone r hr, List.append_nil] at hshort

theorem Stalled.steps (h : s.Stalled) {later : List Event}
    (hnone : ∀ r ∈ s.worker.wants, s.received later r.peer r.tag = []) :
    (s.steps later).Stalled := by
  induction later generalizing s with
  | nil => exact h
  | cons e later ih =>
      simp only [received, List.append_eq_nil_iff] at hnone
      obtain ⟨hstep, hworker⟩ := h.step fun r hr => (hnone r hr).1
      refine ih hstep fun r hr => ?_
      rcases hworker with hsame | hended
      · exact (hnone r (hsame ▸ hr)).2
      · rw [hended] at hr
        exact absurd hr List.not_mem_nil

/-! ## Sleep -/

/-- No worker sleeps on bytes that are there.

However the worker, its receives and the notifications take turns, the worker soon has nothing
to do by itself.  Then it has ended, or it has receives that are not complete, and each of them
asks for more bytes than are queued unless its notification is still to be given.  Once all are
given the worker comes to rest where it would if it had tried all its receives.

Every history of the session comes about in this way.  So after a run at any time each receive
that is not complete asks for more bytes than are queued, and runs change nothing until bytes
come for one of them, whatever else happens. -/
theorem sleeping_lacks_bytes {c : Compiled} {name : String} {values : Values}
    {program : EngineProgram} {faulty : Nat → Option String} {s : Session}
    (h : start c name values program faulty = .ok s) :
    (∀ ms w, (Watched.start s).moves? ms = some w →
      w.Ends ∧
      (w.AtRest → w.session.worker ≠ .ended →
        w.session.worker.wants ≠ [] ∧
          ∀ r ∈ w.session.worker.wants, w.session.Lacks r ∨ (r.peer, r.tag) ∈ w.due) ∧
      (w.due = [] → w.RestsAt w.session.run)) ∧
    ∀ es,
      (∃ ms w, (Watched.start s).moves? ms = some w ∧ w.due = [] ∧ w.session = s.steps es) ∧
      ((s.steps es).run.worker ≠ .ended →
        (s.steps es).run.worker.wants ≠ [] ∧
          ∀ r ∈ (s.steps es).run.worker.wants, (s.steps es).run.Lacks r) ∧
      ∀ later,
        (∀ r ∈ (s.steps es).run.worker.wants,
          (s.steps es).run.received later r.peer r.tag = []) →
        ((s.steps es).run.steps later).run = (s.steps es).run.steps later := by
  have halert := Watched.alert_start s
  refine ⟨fun ms w hmoves => ?_, fun es => ⟨halert.exists_steps rfl es, ?_⟩⟩
  · exact ⟨w.ends, (halert.moves hmoves).rest, (halert.moves hmoves).restsAt_run⟩
  · have hstalled := ((start_standing h).steps es).run_stalled
    exact ⟨fun hworker => ⟨wants_ne_nil hstalled.proceed?_eq_none hworker, hstalled.lacks⟩,
      fun later hnone => (hstalled.steps hnone).run_eq⟩

/-- Moves after which the receive of a fingerprint sleeps although the fingerprint has come. -/
def unnotifiedMoves : List WatchMove :=
  [.proceed, .register 0, .look 0, .happen (.message "bob" (0 :: List.replicate 33 7))]

/-- The receive of a fingerprint sleeps on bytes that are there as long as the notification is
due.  Later the engine waits for four receives at once, three of them on one queue.  The bytes
that came before it was started complete two of them, and those left over are too few for the
third. -/
theorem sleeping_lacks_bytes_competing : ∃ (s : Session) (w : Watched),
    start pairCompiled "alice" (.ofList [("a", .int 1)]) competingProgram (fun _ => none) =
      .ok s ∧
    (Watched.start s).moves? unnotifiedMoves = some w ∧ w.AtRest ∧
    w.session.worker.wants = [⟨1, .setup, 32⟩] ∧ ¬ w.session.Lacks ⟨1, .setup, 32⟩ ∧
    (1, .setup) ∈ w.due ∧
    (s.steps (competingHistory.take 2)).run.worker.wants =
      [⟨1, .engine .a, 3⟩, ⟨1, .engine .b, 1⟩] ∧
    ∀ r ∈ (s.steps (competingHistory.take 2)).run.worker.wants,
      (s.steps (competingHistory.take 2)).run.Lacks r := by
  obtain ⟨s, w, hstart, hmoves, hproceed, hworker, hwatch, hqueue, hwants⟩ :
      ∃ (s : Session) (w : Watched),
        start pairCompiled "alice" (.ofList [("a", .int 1)]) competingProgram (fun _ => none) =
          .ok s ∧
        (Watched.start s).moves? unnotifiedMoves = some w ∧
        w.session.proceed? = none ∧ w.session.worker = .greeting [⟨1, none⟩] ∧
        w.watches 0 = .sleeping false ∧
        (w.session.mailbox.queue 1 .setup).length = 33 ∧
        (s.steps (competingHistory.take 2)).run.worker.wants =
          [⟨1, .engine .a, 3⟩, ⟨1, .engine .b, 1⟩] :=
    ⟨_, _, rfl, rfl, rfl, rfl, rfl, rfl, rfl⟩
  have hlaw := sleeping_lacks_bytes hstart
  have hrest : w.AtRest := by
    refine Watched.atRest_iff.mpr ⟨hproceed, fun place r hwant => ?_⟩
    rw [hworker] at hwant
    cases place with
    | zero => exact hwatch
    | succ place => cases hwant
  have hfound : ¬ w.session.Lacks ⟨1, .setup, 32⟩ := by
    rw [Lacks, hqueue]
    decide
  have hopen : w.session.worker.wants = [⟨1, .setup, 32⟩] := by
    rw [hworker]
    rfl
  have hnotEnded : (s.steps (competingHistory.take 2)).run.worker ≠ .ended := by
    intro hended
    rw [hended] at hwants
    cases hwants
  have hdue : (1, .setup) ∈ w.due := by
    have hgreets : w.session.worker ≠ .ended := by
      intro hended
      cases hworker.symm.trans hended
    have hannounced := ((hlaw.1 _ w hmoves).2.1 hrest hgreets).2 _ (hopen ▸ List.mem_cons_self)
    exact hannounced.resolve_left hfound
  exact ⟨s, w, hstart, hmoves, hrest, hopen, hfound, hdue, hwants, ((hlaw.2 _).2.1 hnotEnded).2⟩

end Session

end JointCircuit

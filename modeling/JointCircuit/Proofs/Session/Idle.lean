import JointCircuit.Proofs.Session.Mismatch

/-!
# Running again

A run goes as far as it can.  After it the worker has ended, or it waits and whatever is
still open lacks bytes, be it a receive of the engine (`Session.tryWaits_left`) or the
fingerprint of a peer (`Session.collect_unfinished`).  `Session.Stalled` says so, and then a
second run changes nothing (`Session.Standing.run_run`), as only messages bring more.
-/

namespace JointCircuit

namespace Session

/-! ## Receives -/

theorem queue_take_le {s s' : Session} {p count : Nat} {t : Tag} {bytes : Bytes}
    (h : s.take? p t count = some (bytes, s')) (peer : Nat) (tag : Tag) :
    (s'.mailbox.queue peer tag).length ≤ (s.mailbox.queue peer tag).length := by
  obtain ⟨mailbox, hmailbox, rfl⟩ := take?_eq_some.mp h
  obtain ⟨_, hown, hother⟩ := Mailbox.queue_take hmailbox
  by_cases heq : peer = p ∧ tag = t
  · obtain ⟨rfl, rfl⟩ := heq
    rw [hown, List.length_append]
    exact Nat.le_add_left _ _
  · exact Nat.le_of_eq (congrArg List.length (hother peer tag heq))

/-- Trying receives makes no queue longer. -/
theorem tryWaits_queue_le (peer : Nat) (tag : Tag) : ∀ (ws : List Wait) (s : Session),
    ((tryWaits ws s).2.mailbox.queue peer tag).length ≤ (s.mailbox.queue peer tag).length
  | [], _ => Nat.le_refl _
  | .closed answer :: ws, s => tryWaits_queue_le peer tag ws s
  | .pending r :: ws, s => by
      rw [tryWaits]
      cases htake : s.take? r.peer (.engine r.channel) r.count with
      | none => exact tryWaits_queue_le peer tag ws s
      | some taken =>
          obtain ⟨bytes, t⟩ := taken
          exact Nat.le_trans (tryWaits_queue_le peer tag ws t) (queue_take_le htake peer tag)

/-- A receive that is open after all were tried lacks bytes. -/
theorem tryWaits_left : ∀ (ws : List Wait) (s : Session) (r : Receive),
    .pending r ∈ (tryWaits ws s).1 →
      ((tryWaits ws s).2.mailbox.queue r.peer (.engine r.channel)).length < r.count
  | [], _, _, h => absurd h List.not_mem_nil
  | .closed answer :: ws, s, r, h => by
      rw [tryWaits] at h ⊢
      refine tryWaits_left ws s r ?_
      simpa using h
  | .pending q :: ws, s, r, h => by
      rw [tryWaits] at h ⊢
      cases htake : s.take? q.peer (.engine q.channel) q.count with
      | none =>
          simp only [htake, List.mem_cons, Wait.pending.injEq] at h ⊢
          rcases h with rfl | h
          · exact Nat.lt_of_le_of_lt (tryWaits_queue_le _ _ ws s) (take?_eq_none.mp htake)
          · exact tryWaits_left ws s r h
      | some taken =>
          obtain ⟨bytes, t⟩ := taken
          simp only [htake, List.mem_cons, reduceCtorEq, false_or] at h ⊢
          exact tryWaits_left ws t r h

theorem tryWaits_idle : ∀ {ws : List Wait} {s : Session},
    (∀ r, .pending r ∈ ws → (s.mailbox.queue r.peer (.engine r.channel)).length < r.count) →
      tryWaits ws s = (ws, s)
  | [], _, _ => rfl
  | .closed answer :: ws, s, h => by
      rw [tryWaits, tryWaits_idle fun r hr => h r (List.mem_cons_of_mem _ hr)]
  | .pending q :: ws, s, h => by
      rw [tryWaits, take?_eq_none.mpr (h q List.mem_cons_self)]
      simp only [tryWaits_idle fun r hr => h r (List.mem_cons_of_mem _ hr)]

/-! ## Fingerprints -/

theorem collect_idle : ∀ {gs : List Greeting} {s : Session},
    (∀ g ∈ gs, g.isOpen = true → (s.mailbox.queue g.peer .setup).length < fingerprintSize) →
      collect gs s = (gs, s)
  | [], _, _ => rfl
  | g :: gs, s, h => by
      rw [List.forall_mem_cons] at h
      rw [collect]
      split
      · rename_i hopen
        rw [take?_eq_none.mpr (h.1 hopen)]
        simp only [collect_idle h.2]
      · rw [collect_idle h.2]

/-! ## Runs -/

/-- The worker has ended, or what it waits for is not there. -/
inductive Stalled (s : Session) : Prop where
  /-- It waits for fingerprints. -/
  | greeting {gs : List Greeting} (worker : s.worker = .greeting gs)
      (lacks : ∀ g ∈ gs, g.isOpen = true →
        (s.mailbox.queue g.peer .setup).length < fingerprintSize)
      (wait : s.handshake gs = .unfinished)
  /-- It waits for bytes of its engine. -/
  | waiting {ws : List Wait} {next : List Received → Engine} (worker : s.worker = .waiting ws next)
      (lacks : ∀ r, .pending r ∈ ws →
        (s.mailbox.queue r.peer (.engine r.channel)).length < r.count)
      (wait : Wait.answers? ws = none)
  | ended (worker : s.worker = .ended)

theorem Stalled.run_eq {s : Session} (h : s.Stalled) : s.run = s := by
  rw [run]
  cases h with
  | greeting worker lacks wait =>
      simp only [worker, runHandshake, collect_idle lacks, wait]
      rw [← worker]
  | waiting worker lacks wait =>
      simp only [worker, tryWaits_idle lacks, wait]
      rw [← worker]
  | ended worker => simp only [worker]

theorem drive_stalled : ∀ (e : Engine) (s : Session), (drive e s).Stalled := by
  intro e
  induction e with
  | send peer channel bytes next ih =>
      intro s
      rw [drive]
      split
      · split
        · exact ih none _
        · rw [finish_eq]
          exact .ended rfl
      · exact ih _ _
  | receive requests next ih =>
      intro s
      rw [drive]
      simp only
      split
      · exact ih _ _
      · exact .waiting rfl (tryWaits_left _ _) ‹_›
  | note entry next ih => exact fun s => ih _
  | keep next ih => exact fun s => ih _
  | finish result =>
      intro s
      rw [drive, finish_eq]
      exact .ended rfl

theorem drive_run (e : Engine) (s : Session) : (drive e s).run = drive e s :=
  (drive_stalled e s).run_eq

theorem runHandshake_stalled {s : Session} {gs : List Greeting}
    (hnodup : (gs.map Greeting.peer).Nodup) : (s.runHandshake gs).Stalled := by
  rw [runHandshake]
  simp only
  split
  · exact drive_stalled _ _
  · rename_i hunfinished
    exact .greeting rfl (collect_unfinished hnodup hunfinished) hunfinished
  · exact .ended rfl

theorem Standing.run_stalled {s : Session} (h : s.Standing) : s.run.Stalled := by
  rw [Session.run]
  split
  · rename_i hworker
    split
    · refine runHandshake_stalled ?_
      rw [List.map_map]
      exact (List.map_id _).symm ▸ nodup_peers _
    · exact .ended rfl
  · rename_i gs hworker
    exact runHandshake_stalled ((h.greeted_of_worker hworker).peers ▸ s.nodup_peers)
  · simp only
    split
    · exact drive_stalled _ _
    · exact .waiting rfl (tryWaits_left _ _) ‹_›
  · exact .ended ‹_›

/-- A second run changes nothing. -/
theorem Standing.run_run {s : Session} (h : s.Standing) : s.run.run = s.run :=
  h.run_stalled.run_eq

end Session

end JointCircuit

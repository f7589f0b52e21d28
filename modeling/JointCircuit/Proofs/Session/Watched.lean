import JointCircuit.Proofs.Session.Places

/-!
# Sleeping receives are notified

A receive that sleeps without being notified asks for more bytes than are queued, or its
notification is due.  `Watched.Alert` says so.  It holds of a session that was started, and
every move keeps it (`Watched.Alert.move`), so it holds after every row of moves.

Three things make the step go through.  A receive registers before it looks, so it never
goes to sleep unregistered.  A notification reaches all receives of its queue, and not only
one of them.  And bytes that are put into a queue make a notification due.

A watched session at rest has all its open receives asleep (`Watched.atRest_iff`), so then
none of them waits for bytes that were announced (`Watched.Alert.rest`).
-/

namespace JointCircuit

namespace Session

variable {s : Session}

/-! ## What happens beside the worker -/

/-- An event that puts nothing into a queue brings nothing for it. -/
theorem arrival_eq_nil {e : Event} {peer : Nat} {tag : Tag}
    (h : s.queueOf? e ≠ some (peer, tag)) : s.arrival peer tag e = [] := by
  cases e with
  | message name bytes =>
      cases bytes with
      | nil => rfl
      | cons b payload =>
          rw [arrival, if_neg]
          rintro ⟨hdropped, hpeer, htag⟩
          refine h ?_
          rw [queueOf?, hdropped, hpeer, htag]
          rfl
  | run => rfl
  | drop => rfl
  | keptSend peer channel bytes => rfl
  | keptReceive request => rfl

/-- What is not a run leaves the receives of the worker as they are, unless it ends the
worker, and makes no queue longer but by what arrives. -/
theorem step_beside {e : Event} (hrun : e ≠ .run) :
    (s.step e).2.worker = .ended ∨
      (s.step e).2.worker = s.worker ∧ (s.step e).2.compiled = s.compiled ∧
        ∀ peer tag, ((s.step e).2.mailbox.queue peer tag).length ≤
          (s.mailbox.queue peer tag ++ s.arrival peer tag e).length := by
  have hsame : ∀ t : Session, t.worker = s.worker → t.compiled = s.compiled →
      (∀ peer tag, (t.mailbox.queue peer tag).length ≤ (s.mailbox.queue peer tag).length) →
      t.worker = .ended ∨ t.worker = s.worker ∧ t.compiled = s.compiled ∧
        ∀ peer tag, (t.mailbox.queue peer tag).length ≤
          (s.mailbox.queue peer tag ++ s.arrival peer tag e).length := by
    intro t hworker hcompiled hqueue
    refine .inr ⟨hworker, hcompiled, fun peer tag => Nat.le_trans (hqueue peer tag) ?_⟩
    rw [List.length_append]
    exact Nat.le_add_right _ _
  cases e with
  | run => exact absurd rfl hrun
  | message name bytes =>
      rw [Session.step]
      split
      · exact hsame s rfl rfl fun _ _ => Nat.le_refl _
      · rename_i hdropped
        rw [handleMessage]
        split
        · rename_i haccept
          obtain ⟨p, b, payload, t, hpeer, rfl, htag, rfl⟩ := accept_eq_ok.mp haccept
          refine .inr ⟨rfl, rfl, fun peer tag => Nat.le_of_eq (congrArg List.length ?_)⟩
          rw [Mailbox.queue_push, arrival, hpeer, htag]
          by_cases hown : peer = p ∧ tag = t
          · obtain ⟨rfl, rfl⟩ := hown
            rw [if_pos ⟨rfl, rfl⟩, if_pos ⟨Bool.not_eq_true _ ▸ hdropped, rfl, rfl⟩]
          · rw [if_neg hown, if_neg, List.append_nil]
            rintro ⟨_, hp, ht⟩
            exact hown ⟨(Option.some.inj hp).symm, (Option.some.inj ht).symm⟩
        · exact .inl rfl
  | drop =>
      rw [Session.step]
      split
      · exact hsame s rfl rfl fun _ _ => Nat.le_refl _
      · exact .inl rfl
  | keptSend peer channel bytes =>
      rw [Session.step]
      split
      · rw [keptSend, transmit_eq]
        split
        · cases s.faulty s.attempts <;> exact hsame _ rfl rfl fun _ _ => Nat.le_refl _
        · rw [misaddressed, settle_eq]
          exact hsame _ rfl rfl fun _ _ => Nat.le_refl _
      · exact hsame s rfl rfl fun _ _ => Nat.le_refl _
  | keptReceive q =>
      rw [Session.step]
      split
      · rw [keptReceive]
        split
        · split
          · rename_i bytes t htake
            have hshorter := queue_take_le htake
            obtain ⟨mailbox, _, rfl⟩ := take?_eq_some.mp htake
            exact hsame _ rfl rfl hshorter
          · exact hsame s rfl rfl fun _ _ => Nat.le_refl _
        · rw [misaddressed, settle_eq]
          exact hsame _ rfl rfl fun _ _ => Nat.le_refl _
      · exact hsame s rfl rfl fun _ _ => Nat.le_refl _

theorem Lacks.of_queue_le {t : Session} {r : Want} (h : s.Lacks r)
    (hqueue : (t.mailbox.queue r.peer r.tag).length ≤ (s.mailbox.queue r.peer r.tag).length) :
    t.Lacks r :=
  Nat.lt_of_le_of_lt hqueue h

/-- A worker that cannot go on has ended, or has an open receive. -/
theorem wants_ne_nil (h : s.proceed? = none) (hworker : s.worker ≠ .ended) :
    s.worker.wants ≠ [] := by
  rw [proceed?] at h
  cases hw : s.worker with
  | fresh =>
      simp only [hw] at h
      split at h <;> cases h
  | greeting gs =>
      simp only [hw] at h
      split at h
      · cases h
      · rename_i hunfinished
        obtain ⟨g, hg, hopen⟩ := exists_open hunfinished
        exact List.ne_nil_of_mem (mem_wants_greeting.mpr ⟨g, hg, hopen, rfl⟩)
      · cases h
  | waiting ws next =>
      simp only [hw] at h
      split at h
      · cases h
      · rename_i hwait
        obtain ⟨r, hr⟩ := exists_pending hwait
        exact List.ne_nil_of_mem (mem_wants_waiting.mpr ⟨r, hr, rfl⟩)
  | ended => exact absurd hw hworker

end Session

namespace Watched

variable {w w' w'' : Watched} {ms : List WatchMove} {m : WatchMove} {place : Nat} {r : Want}

/-! ## Registrations -/

theorem setWatch_self (w : Watched) (place : Nat) (x : Watch) :
    (w.setWatch place x).watches place = x :=
  if_pos rfl

theorem setWatch_of_ne (w : Watched) (x : Watch) {place i : Nat} (h : i ≠ place) :
    (w.setWatch place x).watches i = w.watches i :=
  if_neg h

/-! ## Moves -/

theorem move?_happen {e : Event} (hrun : e ≠ .run) : w.move? (.happen e) =
    some { w with
      session := (w.session.step e).2
      due := (w.session.queueOf? e).toList ++ w.due } := by
  cases e with
  | run => exact absurd rfl hrun
  | message name bytes => rfl
  | drop => rfl
  | keptSend peer channel bytes => rfl
  | keptReceive request => rfl

theorem moves?_append (ms ms' : List WatchMove) (w : Watched) :
    w.moves? (ms ++ ms') = (w.moves? ms).bind fun w => w.moves? ms' := by
  induction ms generalizing w with
  | nil => rfl
  | cons m ms ih =>
      rw [List.cons_append, moves?, moves?]
      cases w.move? m with
      | none => rfl
      | some w' => exact ih w'

/-- What every move keeps holds after every row of moves. -/
theorem moves?_induction {P : Watched → Prop}
    (hmove : ∀ {m : WatchMove} {w w' : Watched}, P w → w.move? m = some w' → P w') :
    ∀ {ms : List WatchMove} {w : Watched}, P w → w.moves? ms = some w' → P w'
  | [], _, hw, h => Option.some.inj h ▸ hw
  | m :: ms, w, hw, h => by
      rw [moves?] at h
      split at h
      · exact moves?_induction hmove (hmove hw ‹_›) h
      · cases h

/-! ## The invariant -/

/-- A receive that sleeps without being notified lacks bytes, or its notification is due. -/
def Alert (w : Watched) : Prop :=
  ∀ place r, w.session.worker.wantAt? place = some r → w.watches place = .sleeping false →
    w.session.Lacks r ∨ (r.peer, r.tag) ∈ w.due

theorem alert_of_unregistered (h : ∀ place, w.watches place = .unregistered) : w.Alert := by
  intro place r _ hsleeps
  rw [h place] at hsleeps
  cases hsleeps

theorem alert_start (s : Session) : (start s).Alert := alert_of_unregistered fun _ => rfl

/-- A receive that starts over, or looks at its queue next, does not sleep. -/
theorem Alert.setWatch (h : w.Alert) {x : Watch} (hx : x ≠ .sleeping false) :
    (w.setWatch place x).Alert := by
  intro i r hr hsleeps
  by_cases hi : i = place
  · rw [hi, setWatch_self] at hsleeps
    exact absurd hsleeps hx
  · rw [setWatch_of_ne w x hi] at hsleeps
    exact h i r hr hsleeps

/-- A receive that found too few bytes may sleep. -/
theorem Alert.fallAsleep (h : w.Alert) (hwant : w.session.worker.wantAt? place = some r)
    (hlacks : w.session.Lacks r) (notified : Bool) :
    (w.setWatch place (.sleeping notified)).Alert := by
  intro i q hq hsleeps
  by_cases hi : i = place
  · obtain rfl := Option.some.inj (hwant.symm.trans (hi ▸ hq))
    exact .inl hlacks
  · rw [setWatch_of_ne w _ hi] at hsleeps
    exact h i q hq hsleeps

/-- The bytes that a receive takes are no reason for another one to wake. -/
theorem Alert.serve {t : Session} (h : w.Alert) (hserve : w.session.serve? place r = some t) :
    ({ w with session := t } : Watched).Alert := by
  obtain ⟨hself, hothers⟩ := Session.wantAt?_serve hserve
  intro i q hq hsleeps
  by_cases hi : i = place
  · rw [hi, hself] at hq
    cases hq
  · rw [hothers i hi] at hq
    rcases h i q hq hsleeps with hlacks | hdue
    · exact .inl (hlacks.of_queue_le (Session.queue_serve_le hserve _ _))
    · exact .inr hdue

/-- No receive of a queue that was announced sleeps unnotified. -/
theorem Alert.notify (h : w.Alert) (peer : Nat) (tag : Tag) :
    ({ w with
        watches := w.notified peer tag
        due := w.due.erase (peer, tag) } : Watched).Alert := by
  intro i q hq hsleeps
  simp only [Watched.notified, hq] at hsleeps
  split at hsleeps
  · cases hwatch : w.watches i <;> rw [hwatch] at hsleeps <;> cases hsleeps
  · rename_i hother
    rcases h i q hq hsleeps with hlacks | hdue
    · exact .inl hlacks
    · refine .inr ((List.mem_erase_of_ne ?_).mpr hdue)
      intro heq
      exact hother (Prod.mk.inj heq)

/-- Bytes that come make a notification due. -/
theorem Alert.happen (h : w.Alert) {e : Event} (hrun : e ≠ .run) :
    ({ w with
        session := (w.session.step e).2
        due := (w.session.queueOf? e).toList ++ w.due } : Watched).Alert := by
  intro i q hq hsleeps
  rcases Session.step_beside (s := w.session) hrun with hended | ⟨hworker, _, hqueue⟩
  · rw [hended] at hq
    cases hq
  · rw [hworker] at hq
    rcases h i q hq hsleeps with hlacks | hdue
    · by_cases hown : w.session.queueOf? e = some (q.peer, q.tag)
      · rw [hown]
        exact .inr List.mem_cons_self
      · have hshort := hqueue q.peer q.tag
        rw [Session.arrival_eq_nil hown, List.append_nil] at hshort
        exact .inl (hlacks.of_queue_le hshort)
    · exact .inr (List.mem_append_right _ hdue)

theorem Alert.move (h : w.Alert) (hmove : w.move? m = some w') : w'.Alert := by
  cases m with
  | proceed =>
      rw [move?] at hmove
      split at hmove
      · cases hmove
        exact alert_of_unregistered fun _ => rfl
      · cases hmove
  | register place =>
      rw [move?] at hmove
      split at hmove
      · cases hmove
        exact h.setWatch nofun
      · cases hmove
  | look place =>
      rw [move?] at hmove
      split at hmove
      · rename_i r notified hwant _
        split at hmove
        · cases hmove
          exact h.serve ‹_›
        · rename_i hserve
          cases hmove
          exact h.fallAsleep hwant (Session.serve?_eq_none.mp hserve) notified
      · cases hmove
  | wake place =>
      rw [move?] at hmove
      split at hmove
      · cases hmove
        exact h.setWatch nofun
      · cases hmove
  | notify peer tag =>
      rw [move?] at hmove
      split at hmove
      · cases hmove
        exact h.notify peer tag
      · cases hmove
  | happen e =>
      by_cases hrun : e = .run
      · subst hrun
        cases hmove
      · rw [move?_happen hrun] at hmove
        cases hmove
        exact h.happen hrun

theorem Alert.moves (h : w.Alert) (hmoves : w.moves? ms = some w') : w'.Alert :=
  moves?_induction Alert.move h hmoves

/-! ## Rest -/

/-- At rest the worker cannot go on, and all its open receives sleep unnotified. -/
theorem atRest_iff : w.AtRest ↔ w.session.proceed? = none ∧
    ∀ place r, w.session.worker.wantAt? place = some r → w.watches place = .sleeping false := by
  constructor
  · intro h
    refine ⟨?_, fun place r hwant => ?_⟩
    · have hproceed := h .proceed rfl
      rw [move?] at hproceed
      split at hproceed
      · cases hproceed
      · assumption
    · cases hwatch : w.watches place with
      | unregistered =>
          have hregister := h (.register place) rfl
          rw [move?, hwant, hwatch] at hregister
          cases hregister
      | looking notified =>
          have hlook := h (.look place) rfl
          simp only [move?, hwant, hwatch] at hlook
          split at hlook <;> cases hlook
      | sleeping notified =>
          cases notified with
          | true =>
              have hwake := h (.wake place) rfl
              rw [move?, hwant, hwatch] at hwake
              cases hwake
          | false => rfl
  · rintro ⟨hproceed, hsleep⟩ m hown
    cases m with
    | proceed => rw [move?, hproceed]
    | register place =>
        rw [move?]
        split
        · rename_i hwant hwatch
          cases hwatch.symm.trans (hsleep place _ hwant)
        · rfl
    | look place =>
        rw [move?]
        split
        · rename_i hwant hwatch
          cases hwatch.symm.trans (hsleep place _ hwant)
        · rfl
    | wake place =>
        rw [move?]
        split
        · rename_i hwant hwatch
          cases hwatch.symm.trans (hsleep place _ hwant)
        · rfl
    | notify peer tag => cases hown
    | happen e => cases hown

/-- A worker at rest that has not ended has open receives, and none of them waits for bytes
that were announced. -/
theorem Alert.rest (h : w.Alert) (hrest : w.AtRest) (hworker : w.session.worker ≠ .ended) :
    w.session.worker.wants ≠ [] ∧
      ∀ r ∈ w.session.worker.wants, w.session.Lacks r ∨ (r.peer, r.tag) ∈ w.due := by
  obtain ⟨hproceed, hsleep⟩ := atRest_iff.mp hrest
  refine ⟨Session.wants_ne_nil hproceed hworker, fun r hr => ?_⟩
  obtain ⟨place, hplace⟩ := Worker.mem_wants_iff.mp hr
  exact h place r hplace (hsleep place r hplace)

end Watched

end JointCircuit

import JointCircuit.Proofs.Session.Watched

/-!
# Coming to rest

`Session.run` tries all open receives.  The worker of a watched session only tries those that
are notified, and comes to rest at the same session all the same (`Watched.Alert.restsAt_run`).
A receive that sleeps unnotified would not have taken anything.

The proof follows the worker.  A receive can be polled, after which it is complete or asleep
(`Watched.Alert.exists_polled`), and so can a row of receives in the order of their places
(`Watched.Alert.exists_served`).  Between receives an engine goes its own way, so the whole
run is an induction on its tree (`Watched.restsAt_drive`).
-/

namespace JointCircuit

namespace Watched

variable {w w' w'' : Watched} {place : Nat} {r : Want} {s : Session}

/-! ## Moves of the worker -/

/-- The worker gets from one watched session to another by its own moves. -/
def Runs (w w' : Watched) : Prop :=
  ∃ ms, (∀ m ∈ ms, m.isOwn = true) ∧ w.moves? ms = some w'

theorem Runs.refl (w : Watched) : w.Runs w := ⟨[], fun _ h => absurd h List.not_mem_nil, rfl⟩

theorem Runs.of_move {m : WatchMove} (hown : m.isOwn = true) (h : w.move? m = some w') :
    w.Runs w' := by
  refine ⟨[m], fun n hn => List.mem_singleton.mp hn ▸ hown, ?_⟩
  rw [moves?, h]
  rfl

theorem Runs.trans (h : w.Runs w') (h' : w'.Runs w'') : w.Runs w'' := by
  obtain ⟨ms, hown, hmoves⟩ := h
  obtain ⟨ms', hown', hmoves'⟩ := h'
  refine ⟨ms ++ ms', fun m hm => ?_, ?_⟩
  · exact (List.mem_append.mp hm).elim (hown m) (hown' m)
  · rw [moves?_append, hmoves]
    exact hmoves'

/-- The worker comes to rest at a session, with nothing left to announce. -/
def RestsAt (w : Watched) (s : Session) : Prop :=
  ∃ w', w.Runs w' ∧ w'.AtRest ∧ w'.due = [] ∧ w'.session = s

theorem Runs.restsAt (h : w.Runs w') (hrest : w'.RestsAt s) : w.RestsAt s := by
  obtain ⟨v, hv, hrest⟩ := hrest
  exact ⟨v, h.trans hv, hrest⟩

theorem restsAt_ended (hdue : w.due = []) (hsession : w.session = s)
    (hended : s.worker = .ended) : w.RestsAt s := by
  refine ⟨w, .refl w, atRest_iff.mpr ⟨?_, fun place r hwant => ?_⟩, hdue, hsession⟩
  · rw [hsession, Session.proceed?, hended]
  · rw [hsession, hended] at hwant
    cases hwant

/-- A worker that can go on comes to rest where it comes to rest from there. -/
theorem restsAt_of_proceed {t : Session} (hdue : w.due = []) (h : w.session.proceed? = some t)
    (hnext : ∀ v : Watched, v.Alert → v.due = [] → v.session = t → v.RestsAt s) :
    w.RestsAt s := by
  have hmove : w.move? .proceed =
      some { w with session := t, watches := fun _ => .unregistered } := by rw [move?, h]
  exact (Runs.of_move rfl hmove).restsAt
    (hnext _ (alert_of_unregistered fun _ => rfl) hdue rfl)

/-! ## Receives in turn -/

/-- The receive at a place was polled.  It took its bytes if they were there, and sleeps
otherwise. -/
structure Polled (w : Watched) (place : Nat) (w' : Watched) : Prop where
  runs : w.Runs w'
  due : w'.due = w.due
  session : w'.session = w.session.servePlace place
  watches : ∀ i, i ≠ place → w'.watches i = w.watches i
  sleeps : ∀ r, w'.session.worker.wantAt? place = some r → w'.watches place = .sleeping false

/-- A receive that lacks bytes and sleeps need not be polled. -/
theorem polled_asleep (hwant : w.session.worker.wantAt? place = some r)
    (hlacks : w.session.Lacks r) (hwatch : w.watches place = .sleeping false) :
    w.Polled place w where
  runs := .refl w
  due := rfl
  session := (Session.servePlace_of_lacks hwant hlacks).symm
  watches _ _ := rfl
  sleeps _ _ := hwatch

/-- A receive that only gets on to another stage may be polled from there. -/
theorem Polled.of_setWatch {m : WatchMove} {x : Watch} (hown : m.isOwn = true)
    (hmove : w.move? m = some (w.setWatch place x)) (h : (w.setWatch place x).Polled place w') :
    w.Polled place w' where
  runs := (Runs.of_move hown hmove).trans h.runs
  due := h.due
  session := h.session
  watches i hi := (h.watches i hi).trans (setWatch_of_ne w x hi)
  sleeps := h.sleeps

/-- A receive that looks at its queue takes its bytes, or goes to sleep. -/
theorem exists_looked (hwant : w.session.worker.wantAt? place = some r) {notified : Bool}
    (hwatch : w.watches place = .looking notified) :
    (w.session.Lacks r ∧ w.move? (.look place) = some (w.setWatch place (.sleeping notified))) ∨
      ∃ w', w.Polled place w' := by
  cases hserve : w.session.serve? place r with
  | none =>
      refine .inl ⟨Session.serve?_eq_none.mp hserve, ?_⟩
      simp only [move?, hwant, hwatch, hserve]
  | some t =>
      have hmove : w.move? (.look place) = some { w with session := t } := by
        simp only [move?, hwant, hwatch, hserve]
      refine .inr ⟨_, .of_move rfl hmove, rfl, (Session.servePlace_of_serve hwant hserve).symm,
        fun _ _ => rfl, fun q hq => ?_⟩
      rw [(Session.wantAt?_serve hserve).1] at hq
      cases hq

theorem exists_polled_looking (hwant : w.session.worker.wantAt? place = some r)
    (hwatch : w.watches place = .looking false) : ∃ w', w.Polled place w' := by
  rcases exists_looked hwant hwatch with ⟨hlacks, hlook⟩ | hpolled
  · exact ⟨_, .of_setWatch rfl hlook (polled_asleep hwant hlacks (setWatch_self _ _ _))⟩
  · exact hpolled

theorem exists_polled_unregistered (hwant : w.session.worker.wantAt? place = some r)
    (hwatch : w.watches place = .unregistered) : ∃ w', w.Polled place w' := by
  have hregister : w.move? (.register place) = some (w.setWatch place (.looking false)) := by
    rw [move?, hwant, hwatch]
  obtain ⟨w', hpolled⟩ :=
    exists_polled_looking (w := w.setWatch place (.looking false)) hwant (setWatch_self _ _ _)
  exact ⟨w', .of_setWatch rfl hregister hpolled⟩

/-- A receive that was notified starts over. -/
theorem exists_polled_notified (hwant : w.session.worker.wantAt? place = some r)
    (hwatch : w.watches place = .sleeping true) : ∃ w', w.Polled place w' := by
  have hwake : w.move? (.wake place) = some (w.setWatch place .unregistered) := by
    rw [move?, hwant, hwatch]
  obtain ⟨w', hpolled⟩ :=
    exists_polled_unregistered (w := w.setWatch place .unregistered) hwant (setWatch_self _ _ _)
  exact ⟨w', .of_setWatch rfl hwake hpolled⟩

/-- A receive can be polled however far it is. -/
theorem Alert.exists_polled (h : w.Alert) (hdue : w.due = []) (place : Nat) :
    ∃ w', w.Polled place w' := by
  cases hwant : w.session.worker.wantAt? place with
  | none =>
      refine ⟨w, .refl w, rfl, (Session.servePlace_of_closed hwant).symm, fun _ _ => rfl,
        fun r hr => ?_⟩
      rw [hwant] at hr
      cases hr
  | some r =>
      cases hwatch : w.watches place with
      | unregistered => exact exists_polled_unregistered hwant hwatch
      | looking notified =>
          cases notified with
          | false => exact exists_polled_looking hwant hwatch
          | true =>
              rcases exists_looked hwant hwatch with ⟨_, hlook⟩ | hpolled
              · obtain ⟨w', hpolled⟩ :=
                  exists_polled_notified (w := w.setWatch place (.sleeping true)) hwant
                    (setWatch_self _ _ _)
                exact ⟨w', .of_setWatch rfl hlook hpolled⟩
              · exact hpolled
      | sleeping notified =>
          cases notified with
          | false =>
              -- it was not notified, so there is nothing for it
              have hlacks := (h place r hwant hwatch).resolve_right (hdue ▸ List.not_mem_nil)
              exact ⟨w, polled_asleep hwant hlacks hwatch⟩
          | true => exact exists_polled_notified hwant hwatch

theorem Runs.alert (h : w.Runs w') (halert : w.Alert) : w'.Alert := by
  obtain ⟨_, _, hmoves⟩ := h
  exact halert.moves hmoves

/-- Receives can be polled in the order of places.  Those of them that are open then sleep,
and so do those that slept before. -/
theorem Alert.exists_served (places : List Nat) (h : w.Alert) (hdue : w.due = []) :
    ∃ w', w.Runs w' ∧ w'.due = [] ∧ w'.session = Session.servePlaces places w.session ∧
      ∀ i r, i ∈ places ∨ w.watches i = .sleeping false →
        w'.session.worker.wantAt? i = some r → w'.watches i = .sleeping false := by
  induction places generalizing w with
  | nil => exact ⟨w, .refl w, hdue, rfl, fun i _ hi _ => hi.resolve_left List.not_mem_nil⟩
  | cons place places ih =>
      obtain ⟨u, hpolled⟩ := h.exists_polled hdue place
      obtain ⟨w', hruns, hdue', hsession, hsleeps⟩ :=
        ih (hpolled.runs.alert h) (hpolled.due.trans hdue)
      refine ⟨w', hpolled.runs.trans hruns, hdue', ?_, fun i r hi hwant => ?_⟩
      · rw [hsession, hpolled.session, Session.servePlaces_cons]
      · have hopen : u.session.worker.wantAt? i ≠ none := by
          intro hclosed
          rw [hsession, Session.wantAt?_servePlaces hclosed] at hwant
          cases hwant
        obtain ⟨q, hq⟩ := Option.ne_none_iff_exists'.mp hopen
        by_cases hplace : i = place
        · exact hsleeps i r (.inr (hplace ▸ hpolled.sleeps q (hplace ▸ hq))) hwant
        · refine hsleeps i r ?_ hwant
          rw [hpolled.watches i hplace]
          exact hi.imp_left fun hmem => (List.mem_cons.mp hmem).resolve_left hplace

/-! ## Whole runs -/

/-- The worker comes to rest after its receives were tried in turn, if it cannot go on then. -/
theorem Alert.restsAt_of_served {places : List Nat} (h : w.Alert) (hdue : w.due = [])
    (hserved : Session.servePlaces places w.session = s) (hstuck : s.proceed? = none)
    (hplaces : ∀ i r, w.session.worker.wantAt? i = some r → i ∈ places) : w.RestsAt s := by
  obtain ⟨w', hruns, hdue', hsession, hsleeps⟩ := h.exists_served places hdue
  rw [hserved] at hsession
  refine ⟨w', hruns, atRest_iff.mpr ⟨hsession ▸ hstuck, fun i r hwant => ?_⟩, hdue', hsession⟩
  refine hsleeps i r (.inl ?_) hwant
  cases hopen : w.session.worker.wantAt? i with
  | none =>
      rw [hsession, ← hserved, Session.wantAt?_servePlaces hopen] at hwant
      cases hwant
  | some q => exact hplaces i q hopen

/-- It goes on after its receives were tried in turn, if it can. -/
theorem Alert.restsAt_of_served_proceed {places : List Nat} {t u : Session} (h : w.Alert)
    (hdue : w.due = []) (hserved : Session.servePlaces places w.session = t)
    (hproceed : t.proceed? = some u)
    (hnext : ∀ v : Watched, v.Alert → v.due = [] → v.session = u → v.RestsAt s) :
    w.RestsAt s := by
  obtain ⟨w', hruns, hdue', hsession, _⟩ := h.exists_served places hdue
  rw [hserved] at hsession
  exact hruns.restsAt (restsAt_of_proceed hdue' (hsession ▸ hproceed) hnext)

/-- A worker that waits for receives tries them, and goes on with its engine if all of them
are complete. -/
theorem Alert.restsAt_waiting {ws : List Wait} {next : List Received → Engine} (h : w.Alert)
    (hdue : w.due = []) (hsession : w.session = { s with worker := .waiting ws next })
    (hnext : ∀ (answers : List Received) (t : Session) (v : Watched), v.Alert → v.due = [] →
      v.session = Session.reach (next answers) t → v.RestsAt (Session.drive (next answers) t)) :
    w.RestsAt
      (match Wait.answers? (Session.tryWaits ws s).1 with
      | some answers => Session.drive (next answers) (Session.tryWaits ws s).2
      | none =>
          { (Session.tryWaits ws s).2 with
            worker := .waiting (Session.tryWaits ws s).1 next }) := by
  have hserved := Session.servePlaces_waiting next ws [] s
  rw [List.nil_append, ← hsession] at hserved
  split
  · rename_i answers hanswers
    refine h.restsAt_of_served_proceed hdue hserved (u := Session.reach (next answers)
      (Session.tryWaits ws s).2) ?_ fun v halert hnone hv => hnext answers _ v halert hnone hv
    simp only [Session.proceed?, List.nil_append, hanswers, Session.reach_worker]
  · rename_i hanswers
    refine h.restsAt_of_served hdue hserved ?_ fun i r hwant => ?_
    · simp only [Session.proceed?, hanswers]
    · rw [hsession] at hwant
      have hlt : i < ws.length := Worker.lt_width hwant
      exact List.mem_range'_1.mpr ⟨Nat.zero_le _, by simpa using hlt⟩

/-- An engine that goes its way comes to rest where it would if it tried all its receives. -/
theorem restsAt_drive (e : Engine) : ∀ (s : Session) (w : Watched), w.Alert → w.due = [] →
    w.session = Session.reach e s → w.RestsAt (Session.drive e s) := by
  induction e with
  | send peer channel bytes next ih =>
      intro s w halert hdue hsession
      rw [Session.reach] at hsession
      rw [Session.drive]
      split
      · rename_i hpeer
        rw [if_pos hpeer] at hsession
        generalize s.transmit peer (.engine channel) bytes = sent at hsession
        obtain ⟨t, fault⟩ := sent
        cases fault with
        | none => exact ih none t w halert hdue hsession
        | some text => exact restsAt_ended hdue hsession (t.worker_finish _)
      · rename_i hpeer
        rw [if_neg hpeer] at hsession
        exact ih _ _ w halert hdue hsession
  | receive requests next ih =>
      intro s w halert hdue hsession
      rw [Session.reach] at hsession
      rw [Session.drive]
      exact halert.restsAt_waiting hdue hsession fun answers t v => ih answers t v
  | note entry next ih => exact fun s w => ih _ w
  | keep next ih => exact fun s w => ih _ w
  | finish result =>
      intro s w _ hdue hsession
      exact restsAt_ended hdue hsession (s.worker_finish result)

/-- A worker that waits for fingerprints comes to rest where it would if it collected all that
are there. -/
theorem Alert.restsAt_handshake {gs : List Greeting} (h : w.Alert) (hdue : w.due = [])
    (hsession : w.session = { s with worker := .greeting gs }) :
    w.RestsAt (s.runHandshake gs) := by
  obtain ⟨k, hk, hserved, hstop⟩ := Session.servePlaces_greeting gs [] s
  rw [List.nil_append, ← hsession] at hserved
  rw [Session.runHandshake]
  simp only
  generalize hcollect : Session.collect gs s = collected at hserved hstop
  obtain ⟨gs', t⟩ := collected
  have hstands : ({ t with worker := .greeting gs' } : Session).handshake gs' = t.handshake gs' :=
    rfl
  split
  · rename_i hmatched
    refine h.restsAt_of_served_proceed hdue hserved (u := Session.reach t.engine
      (((t.advance .handshakeVerified).advance .computing).record .started)) ?_
      fun v halert hnone hv => restsAt_drive _ _ v halert hnone hv
    simp only [Session.proceed?, List.nil_append, hstands, hmatched, Session.advance_worker]
    exact congrArg some (Session.reach_worker (.greeting gs') t.engine
      (((t.advance .handshakeVerified).advance .computing).record .started))
  · rename_i hunfinished
    refine h.restsAt_of_served hdue hserved ?_ fun i r hwant => ?_
    · simp only [Session.proceed?, hstands, hunfinished]
    · have hall : k = gs.length := by
        refine Nat.le_antisymm hk (Nat.le_of_not_lt fun hlt => ?_)
        exact Session.collect_not_stopped hcollect hunfinished (hstop hlt)
      rw [hsession] at hwant
      have hlt : i < gs.length := Worker.lt_width hwant
      exact List.mem_range'_1.mpr ⟨Nat.zero_le _, by simpa [hall] using hlt⟩
  · rename_i peer hmismatch
    refine h.restsAt_of_served_proceed hdue hserved
      (u := t.conclude (.error (.setupMismatch (t.nameOf peer)))) ?_
      fun v _ hnone hv => restsAt_ended hnone hv rfl
    simp only [Session.proceed?, List.nil_append, hstands, hmismatch, Session.conclude_worker]
    rfl

/-- The worker comes to rest where a run of it ends. -/
theorem Alert.restsAt_run (h : w.Alert) (hdue : w.due = []) : w.RestsAt w.session.run := by
  have hsame : ∀ x, w.session.worker = x → w.session = { w.session with worker := x } := by
    rintro _ rfl
    rfl
  rw [Session.run]
  split
  · rename_i hworker
    generalize hgreet : Session.greet w.session.peers w.session = greeted
    obtain ⟨t, sent⟩ := greeted
    cases sent with
    | true =>
        refine restsAt_of_proceed hdue (t := { t.advance .handshakeSent with
          worker := .greeting (t.peers.map fun peer => ⟨peer, none⟩) }) ?_
          fun v halert hnone hv => halert.restsAt_handshake hnone hv
        simp only [Session.proceed?, hworker, hgreet]
    | false =>
        refine restsAt_of_proceed hdue (t := t.conclude (.error .stopped)) ?_
          fun v _ hnone hv => restsAt_ended hnone hv rfl
        simp only [Session.proceed?, hworker, hgreet]
  · rename_i gs hworker
    exact h.restsAt_handshake hdue (hsame _ hworker)
  · rename_i ws next hworker
    exact h.restsAt_waiting hdue (hsame _ hworker) fun answers t v => restsAt_drive _ t v
  · rename_i hworker
    exact restsAt_ended hdue rfl hworker

/-! ## Histories -/

/-- An event is a row of moves after which nothing is left to announce. -/
theorem Alert.exists_step (h : w.Alert) (hdue : w.due = []) (e : Event) :
    ∃ ms w', w.moves? ms = some w' ∧ w'.due = [] ∧ w'.session = (w.session.step e).2 := by
  by_cases hrun : e = .run
  · obtain ⟨w', ⟨ms, _, hmoves⟩, _, hdue', hsession⟩ := h.restsAt_run hdue
    exact ⟨ms, w', hmoves, hdue', hrun ▸ hsession⟩
  · cases hqueue : w.session.queueOf? e with
    | none =>
        refine ⟨[.happen e], { w with session := (w.session.step e).2 }, ?_, hdue, rfl⟩
        rw [moves?, move?_happen hrun, hqueue]
        rfl
    | some queue =>
        obtain ⟨peer, tag⟩ := queue
        let u : Watched := { w with session := (w.session.step e).2, due := [(peer, tag)] }
        have hhappen : w.move? (.happen e) = some u := by
          rw [move?_happen hrun, hqueue, hdue]
          rfl
        have hnotify : u.move? (.notify peer tag) =
            some { u with watches := u.notified peer tag, due := [] } := by
          rw [move?, if_pos List.mem_cons_self, List.erase_cons_head]
        refine ⟨[.happen e, .notify peer tag],
          { u with watches := u.notified peer tag, due := [] }, ?_, rfl, rfl⟩
        rw [moves?, hhappen]
        simp only [moves?, hnotify]

/-- A watched session can follow every history. -/
theorem Alert.exists_steps (h : w.Alert) (hdue : w.due = []) (es : List Event) :
    ∃ ms w', w.moves? ms = some w' ∧ w'.due = [] ∧ w'.session = w.session.steps es := by
  induction es generalizing w with
  | nil => exact ⟨[], w, rfl, hdue, rfl⟩
  | cons e es ih =>
      obtain ⟨ms, u, hmoves, hnone, hstep⟩ := h.exists_step hdue e
      obtain ⟨ms', w', hmoves', hnone', hsteps⟩ := ih (h.moves hmoves) hnone
      refine ⟨ms ++ ms', w', ?_, hnone', ?_⟩
      · rw [moves?_append, hmoves]
        exact hmoves'
      · rw [hsteps, hstep, Session.steps]

end Watched

end JointCircuit

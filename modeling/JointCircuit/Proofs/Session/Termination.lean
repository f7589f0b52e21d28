import JointCircuit.Proofs.Session.Watched
import Mathlib.Algebra.Order.BigOperators.Group.Finset

/-!
# Workers do not spin

The worker of a watched session and its receives can make finitely many moves by themselves,
in whatever order they make them (`Watched.ends`).  A receive only starts over when it was
notified, and giving notifications is not a move of the worker.

As long as the worker stays at its receives, every move makes `Watched.load` smaller.  When it
goes on it comes to other receives, deeper in the tree of its engine.
-/

namespace JointCircuit

/-- How many moves a receive can still make, at most. -/
def Watch.load : Watch → Nat
  | .sleeping false => 0
  | .looking false => 1
  | .unregistered => 2
  | .sleeping true => 3
  | .looking true => 4

namespace Watched

variable {w w' : Watched} {place : Nat} {r : Want}

/-- The worker of a watched session cannot go on for ever by itself. -/
def Ends (w : Watched) : Prop :=
  Acc (fun w' w : Watched => ∃ m : WatchMove, m.isOwn = true ∧ w.move? m = some w') w

/-- How many moves the receive at a place can still make, at most. -/
def loadAt (w : Watched) (place : Nat) : Nat :=
  if (w.session.worker.wantAt? place).isSome then (w.watches place).load else 0

/-- How many moves all receives can still make, at most. -/
def load (w : Watched) : Nat := ∑ place ∈ Finset.range w.session.worker.width, w.loadAt place

theorem loadAt_of_open (h : w.session.worker.wantAt? place = some r) :
    w.loadAt place = (w.watches place).load := by
  rw [loadAt, h]
  rfl

theorem load_lt (hwant : w.session.worker.wantAt? place = some r)
    (hwidth : w'.session.worker.width = w.session.worker.width)
    (hself : w'.loadAt place < (w.watches place).load)
    (hothers : ∀ i, i ≠ place → w'.loadAt i = w.loadAt i) : w'.load < w.load := by
  rw [load, load, hwidth]
  rw [← loadAt_of_open hwant] at hself
  refine Finset.sum_lt_sum (fun i _ => ?_)
    ⟨place, Finset.mem_range.mpr (Worker.lt_width hwant), hself⟩
  by_cases hi : i = place
  · exact hi ▸ Nat.le_of_lt hself
  · exact Nat.le_of_eq (hothers i hi)

theorem load_setWatch_lt (hwant : w.session.worker.wantAt? place = some r) {x : Watch}
    (hx : x.load < (w.watches place).load) : (w.setWatch place x).load < w.load := by
  refine load_lt hwant rfl ?_ fun i hi => ?_
  · rwa [loadAt_of_open (w := w.setWatch place x) hwant, setWatch_self]
  · rw [loadAt, loadAt, setWatch_of_ne w x hi]
    rfl

/-- The other moves of the worker leave it at its receives, and make the load smaller. -/
theorem load_move_lt {m : WatchMove} (hown : m.isOwn = true) (hne : m ≠ .proceed)
    (hmove : w.move? m = some w') :
    w'.load < w.load ∧ (w'.session.worker = w.session.worker ∨
      ∃ own place bytes, w'.session.worker = w.session.worker.complete own place bytes) := by
  cases m with
  | proceed => exact absurd rfl hne
  | register place =>
      rw [move?] at hmove
      split at hmove
      · rename_i hwant hwatch
        cases hmove
        exact ⟨load_setWatch_lt hwant (hwatch ▸ by decide), .inl rfl⟩
      · cases hmove
  | look place =>
      rw [move?] at hmove
      split at hmove
      · rename_i r notified hwant hwatch
        split at hmove
        · rename_i t hserve
          cases hmove
          obtain ⟨bytes, u, htake, rfl⟩ := Session.serve?_eq_some.mp hserve
          obtain ⟨hself, hothers⟩ := Session.wantAt?_serve hserve
          obtain ⟨mailbox, _, rfl⟩ := Session.take?_eq_some.mp htake
          refine ⟨load_lt hwant (Worker.width_complete ..) ?_ fun i hi => ?_,
            .inr ⟨_, _, _, rfl⟩⟩
          · rw [loadAt, hself, hwatch]
            cases notified <;> decide
          · rw [loadAt, hothers i hi, loadAt]
        · cases hmove
          refine ⟨load_setWatch_lt hwant ?_, .inl rfl⟩
          rw [hwatch]
          cases notified <;> decide
      · cases hmove
  | wake place =>
      rw [move?] at hmove
      split at hmove
      · rename_i hwant hwatch
        cases hmove
        exact ⟨load_setWatch_lt hwant (hwatch ▸ by decide), .inl rfl⟩
      · cases hmove
  | notify peer tag => cases hown
  | happen e => cases hown

/-- A worker comes to an end if it does whenever it goes on from its receives. -/
theorem ends_of_proceed {C : Worker → Prop}
    (hcomplete : ∀ x own place bytes, C x → C (x.complete own place bytes))
    (hproceed : ∀ (s t : Session), C s.worker → s.proceed? = some t →
      ∀ v : Watched, v.session = t → v.Ends)
    (w : Watched) (hw : C w.session.worker) : w.Ends := by
  induction hload : w.load using Nat.strongRecOn generalizing w with
  | ind n ih =>
      subst hload
      refine Acc.intro w fun w' ⟨m, hown, hmove⟩ => ?_
      by_cases hne : m = .proceed
      · rw [hne, move?] at hmove
        split at hmove
        · rename_i t hnext
          cases hmove
          exact hproceed _ t hw hnext _ rfl
        · cases hmove
      · obtain ⟨hlt, hworker⟩ := load_move_lt hown hne hmove
        refine ih _ hlt w' ?_ rfl
        rcases hworker with hsame | ⟨own, place, bytes, hdone⟩
        · exact hsame ▸ hw
        · exact hdone ▸ hcomplete _ own place bytes hw

theorem ends_ended (h : w.session.worker = .ended) : w.Ends := by
  refine ends_of_proceed (C := fun x => x = .ended) ?_ ?_ w h
  · rintro _ own place bytes rfl
    rfl
  · intro s t hs hproceed
    rw [Session.proceed?, hs] at hproceed
    cases hproceed

/-- An engine comes to an end, by induction on its tree. -/
theorem ends_reach (e : Engine) : ∀ (s : Session) (w : Watched),
    w.session = Session.reach e s → w.Ends := by
  induction e with
  | send peer channel bytes next ih =>
      intro s w hsession
      rw [Session.reach] at hsession
      split at hsession
      · split at hsession
        · exact ih none _ w hsession
        · exact ends_ended (hsession ▸ Session.worker_finish _ _)
      · exact ih _ _ w hsession
  | receive requests next ih =>
      intro s w hsession
      rw [Session.reach] at hsession
      refine ends_of_proceed (C := fun x => ∃ ws, x = .waiting ws next) ?_ ?_ w
        ⟨_, congrArg Session.worker hsession⟩
      · rintro _ own place bytes ⟨ws, rfl⟩
        exact ⟨_, rfl⟩
      · rintro s t ⟨ws, hs⟩ hproceed v hv
        simp only [Session.proceed?, hs] at hproceed
        split at hproceed
        · rename_i answers _
          cases hproceed
          exact ih answers _ v hv
        · cases hproceed
  | note entry next ih => exact fun s => ih _
  | keep next ih => exact fun s => ih _
  | finish result => exact fun s w hsession => ends_ended (hsession ▸ Session.worker_finish _ _)

theorem ends_greeting {gs : List Greeting} (h : w.session.worker = .greeting gs) : w.Ends := by
  refine ends_of_proceed (C := fun x => ∃ gs, x = .greeting gs) ?_ ?_ w ⟨gs, h⟩
  · rintro _ own place bytes ⟨gs, rfl⟩
    exact ⟨_, rfl⟩
  · rintro s t ⟨gs, hs⟩ hproceed v hv
    simp only [Session.proceed?, hs] at hproceed
    split at hproceed
    · cases hproceed
      exact ends_reach _ _ v hv
    · cases hproceed
    · cases hproceed
      exact ends_ended (hv ▸ rfl)

/-- The worker of a watched session makes finitely many moves by itself, wherever it stands and
in whatever order they come. -/
theorem ends (w : Watched) : w.Ends := by
  cases hworker : w.session.worker with
  | fresh =>
      refine ends_of_proceed (C := fun x => x = .fresh) ?_ ?_ w hworker
      · rintro _ own place bytes rfl
        rfl
      · intro s t hs hproceed v hv
        simp only [Session.proceed?, hs] at hproceed
        split at hproceed
        · cases hproceed
          exact ends_greeting (congrArg Session.worker hv)
        · cases hproceed
          exact ends_ended (hv ▸ rfl)
  | greeting gs => exact ends_greeting hworker
  | waiting ws next =>
      refine ends_of_proceed (C := fun x => ∃ ws next, x = .waiting ws next) ?_ ?_ w
        ⟨ws, next, hworker⟩
      · rintro _ own place bytes ⟨ws, next, rfl⟩
        exact ⟨_, _, rfl⟩
      · rintro s t ⟨ws, next, hs⟩ hproceed v hv
        simp only [Session.proceed?, hs] at hproceed
        split at hproceed
        · cases hproceed
          exact ends_reach _ _ v hv
        · cases hproceed
  | ended => exact ends_ended hworker

end Watched

end JointCircuit

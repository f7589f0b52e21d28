import JointCircuit.Proofs.Session.Idle

/-!
# Sessions to which more came

An engine that waits for one receive at a time cannot see when bytes come
(`Session.Later.drive`).  Let it run in a session, deliver more bytes and let it go on:
what comes out is the session in which it runs after all bytes are there.

`Session.Later` relates a session to one to which more came.  It looks at the queues and
not at how the mailbox keeps them, and it passes over what was taken in the handshake,
because the order of these takes does depend on when the fingerprints come.  With nothing
more to come, `Session.Alike`, it says that nothing else can tell two sessions apart but
what their workers wait for.
-/

namespace JointCircuit

/-- An engine that goes on with one act when the one before is answered: it never waits for
two receives at once. -/
inductive Engine.Sequential : Engine → Prop where
  | send {peer : Nat} {channel : Channel} {bytes : Bytes} {next : Option ProtocolError → Engine}
      (h : ∀ refusal, Sequential (next refusal)) : Sequential (.send peer channel bytes next)
  | receive {requests : List Receive} {next : List Received → Engine}
      (one : requests.length ≤ 1) (h : ∀ answers, Sequential (next answers)) :
      Sequential (.receive requests next)
  | note {entry : Note} {next : Engine} (h : Sequential next) : Sequential (.note entry next)
  | keep {next : Engine} (h : Sequential next) : Sequential (.keep next)
  | finish (result : EngineResult) : Sequential (.finish result)

/-- A deed other than taking bytes in the handshake. -/
def Deed.isShown : Deed → Bool
  | .took _ .setup _ => false
  | _ => true

/-- The deeds of a row that are shown. -/
def shownAmong (ds : List Deed) : List Deed := ds.filter Deed.isShown

theorem shownAmong_append (ds es : List Deed) :
    shownAmong (ds ++ es) = shownAmong ds ++ shownAmong es :=
  List.filter_append ..

namespace Session

/-- A session is another one to which more bytes came. -/
structure Later (more : Nat → Tag → Bytes) (s t : Session) : Prop where
  frame : ∃ mailbox deeds worker, t = { s with mailbox, deeds, worker }
  queue : ∀ peer tag, t.mailbox.queue peer tag = s.mailbox.queue peer tag ++ more peer tag
  deeds : shownAmong t.deeds.toList = shownAmong s.deeds.toList

/-- Two sessions differ in nothing but their workers, how their mailboxes are kept, and when
bytes were taken in the handshake. -/
abbrev Alike (s t : Session) : Prop := Later (fun _ _ => []) s t

namespace Later

variable {more : Nat → Tag → Bytes} {s s' t t' : Session}

theorem refl (s : Session) : s.Alike s :=
  ⟨⟨s.mailbox, s.deeds, s.worker, rfl⟩, fun _ _ => (List.append_nil _).symm, rfl⟩

theorem symm (h : s.Alike t) : t.Alike s := by
  obtain ⟨mailbox, deeds, worker, rfl⟩ := h.frame
  exact ⟨⟨s.mailbox, s.deeds, s.worker, rfl⟩,
    fun peer tag => by rw [h.queue, List.append_nil, List.append_nil], h.deeds.symm⟩

theorem trans (h : s.Alike s') (h' : s'.Alike t) : s.Alike t := by
  obtain ⟨_, _, _, rfl⟩ := h.frame
  obtain ⟨mailbox, deeds, worker, rfl⟩ := h'.frame
  exact ⟨⟨mailbox, deeds, worker, rfl⟩,
    fun peer tag => by rw [h'.queue, h.queue, List.append_nil], h'.deeds.trans h.deeds⟩

/-- Two sessions are alike when the same came to one session. -/
theorem alike (h : Later more s t) (h' : Later more s t') : t.Alike t' := by
  obtain ⟨_, _, _, rfl⟩ := h.frame
  obtain ⟨mailbox, deeds, worker, rfl⟩ := h'.frame
  exact ⟨⟨mailbox, deeds, worker, rfl⟩,
    fun peer tag => by rw [h'.queue, h.queue, List.append_nil], h'.deeds.trans h.deeds.symm⟩

/-- What workers wait for does not matter. -/
theorem of_worker (h : Later more s t) (worker worker' : Worker) :
    Later more { s with worker := worker } { t with worker := worker' } := by
  obtain ⟨mailbox, deeds, _, rfl⟩ := h.frame
  exact ⟨⟨mailbox, deeds, worker', rfl⟩, h.queue, h.deeds⟩

theorem isPeer_eq (h : Later more s t) (index : Nat) : t.isPeer index = s.isPeer index := by
  obtain ⟨_, _, _, rfl⟩ := h.frame
  rfl

theorem engine_eq (h : Later more s t) : t.engine = s.engine := by
  obtain ⟨_, _, _, rfl⟩ := h.frame
  rfl

/-! ## What a session does, with more bytes or without -/

theorem record (h : Later more s t) (d : Deed) : Later more (s.record d) (t.record d) := by
  obtain ⟨mailbox, deeds, worker, rfl⟩ := h.frame
  refine ⟨⟨mailbox, deeds.push d, worker, rfl⟩, h.queue, ?_⟩
  simp only [Session.record, Array.toList_push, shownAmong_append, h.deeds]

theorem kept (h : Later more s t) : Later more { s with kept := true } { t with kept := true } := by
  obtain ⟨mailbox, deeds, worker, rfl⟩ := h.frame
  exact ⟨⟨mailbox, deeds, worker, rfl⟩, h.queue, h.deeds⟩

theorem transmit (h : Later more s t) (peer : Nat) (tag : Tag) (payload : Bytes) :
    Later more (s.transmit peer tag payload).1 (t.transmit peer tag payload).1 ∧
      (t.transmit peer tag payload).2 = (s.transmit peer tag payload).2 := by
  obtain ⟨mailbox, deeds, worker, rfl⟩ := h.frame
  rw [Session.transmit, Session.transmit]
  cases s.faulty s.attempts with
  | some text => exact ⟨⟨⟨mailbox, deeds, worker, rfl⟩, h.queue, h.deeds⟩, rfl⟩
  | none =>
      have hcount : Later more { s with attempts := s.attempts + 1 }
          { s with attempts := s.attempts + 1, mailbox, deeds, worker } :=
        ⟨⟨mailbox, deeds, worker, rfl⟩, h.queue, h.deeds⟩
      exact ⟨hcount.record _, rfl⟩

theorem settle (h : Later more s t) (result : Except SessionError Results) :
    Later more (s.settle result) (t.settle result) := by
  obtain ⟨mailbox, deeds, worker, rfl⟩ := h.frame
  rw [settle_eq, settle_eq]
  exact ⟨⟨mailbox, deeds, worker, rfl⟩, h.queue, h.deeds⟩

theorem misaddressed (h : Later more s t) (index : Nat) :
    Later more (s.misaddressed index) (t.misaddressed index) :=
  h.settle _

theorem conclude (h : Later more s t) (result : Except SessionError Results) :
    Later more (s.conclude result) (t.conclude result) :=
  (h.settle result).of_worker .ended .ended

theorem finish (h : Later more s t) (result : EngineResult) :
    Later more (s.finish result) (t.finish result) := by
  have hverdict : t.verdict result = s.verdict result := by
    obtain ⟨mailbox, deeds, worker, rfl⟩ := h.frame
    cases result <;> rfl
  rw [finish_eq, finish_eq, hverdict]
  exact h.conclude _

theorem advance (h : Later more s t) (stage : Stage) :
    Later more (s.advance stage) (t.advance stage) := by
  obtain ⟨mailbox, deeds, worker, rfl⟩ := h.frame
  rw [Session.advance, Session.advance]
  cases s.stage.isFinal with
  | true => exact h
  | false => exact ⟨⟨mailbox, deeds, worker, rfl⟩, h.queue, h.deeds⟩

/-- A receive that has its bytes gets the same ones when there are more behind them. -/
theorem take (h : Later more s t) {peer count : Nat} {tag : Tag} {bytes : Bytes}
    (htake : s.take? peer tag count = some (bytes, s')) :
    ∃ t', t.take? peer tag count = some (bytes, t') ∧ Later more s' t' := by
  obtain ⟨mailbox, hmailbox, rfl⟩ := take?_eq_some.mp htake
  obtain ⟨hcount, hown, hother⟩ := Mailbox.queue_take hmailbox
  have henough : t.take? peer tag count ≠ none := by
    rw [Ne, take?_eq_none, h.queue, hown]
    simp only [List.length_append]
    omega
  obtain ⟨⟨bytes', t'⟩, htake'⟩ := Option.ne_none_iff_exists'.mp henough
  obtain ⟨mailbox', hmailbox', rfl⟩ := take?_eq_some.mp htake'
  obtain ⟨hcount', hown', hother'⟩ := Mailbox.queue_take hmailbox'
  rw [h.queue, hown, List.append_assoc] at hown'
  obtain ⟨rfl, hrest⟩ := List.append_inj hown' (hcount.trans hcount'.symm)
  refine ⟨_, htake', ?_, fun p u => ?_, ?_⟩
  · obtain ⟨_, deeds, worker, rfl⟩ := h.frame
    exact ⟨mailbox', _, worker, rfl⟩
  · by_cases heq : p = peer ∧ u = tag
    · obtain ⟨rfl, rfl⟩ := heq
      exact hrest.symm
    · exact (hother' p u heq).trans ((h.queue p u).trans (hother p u heq ▸ rfl))
  · simp only [Array.toList_push, shownAmong_append, h.deeds]

/-- A receive lacks bytes in a session alike when it lacks them. -/
theorem take_none (h : s.Alike t) {peer count : Nat} {tag : Tag}
    (htake : s.take? peer tag count = none) : t.take? peer tag count = none := by
  rw [take?_eq_none] at htake ⊢
  rwa [h.queue, List.append_nil]

end Later

/-! ## One receive at a time -/

section OneReceive

variable {s s' : Session} {r : Receive} {next : List Received → Engine} {bytes : Bytes}

theorem drive_receive_some (hpeer : s.isPeer r.peer = true)
    (htake : s.take? r.peer (.engine r.channel) r.count = some (bytes, s')) :
    drive (.receive [r] next) s = drive (next [.ok bytes]) s' := by
  simp only [drive, openWaits, hpeer, if_true, tryWaits, htake, Wait.answers?, Option.map_some]

theorem drive_receive_none (hpeer : s.isPeer r.peer = true)
    (htake : s.take? r.peer (.engine r.channel) r.count = none) :
    drive (.receive [r] next) s = { s with worker := .waiting [.pending r] next } := by
  simp only [drive, openWaits, hpeer, if_true, tryWaits, htake, Wait.answers?]

theorem drive_receive_stray (hpeer : ¬ s.isPeer r.peer = true) :
    drive (.receive [r] next) s =
      drive (next [.error (.invalidParty r.peer)]) (s.misaddressed r.peer) := by
  simp only [drive, openWaits, if_neg hpeer, tryWaits, Wait.answers?, Option.map_some]

/-- A worker that waits for one receive goes on as if it asked for it now. -/
theorem run_eq_drive (hworker : s.worker = .waiting [.pending r] next)
    (hpeer : s.isPeer r.peer = true) : s.run = drive (.receive [r] next) s := by
  rw [run, hworker, drive]
  simp only [openWaits, hpeer, if_true]

end OneReceive

/-! ## Running before the rest comes -/

theorem run_ended {s : Session} (hworker : s.worker = .ended) : s.run = s := by
  rw [run, hworker]

/-- An engine that ended takes nothing of what comes then. -/
theorem Later.ended {more : Nat → Tag → Bytes} {s t u : Session} (h : Later more s t)
    (result : EngineResult) (hu : Later more (s.finish result) u)
    (hworker : u.worker = (s.finish result).worker) : u.run.Alike (t.finish result) := by
  rw [finish_eq, conclude_eq] at hworker
  rw [run_ended hworker]
  exact hu.alike (h.finish result)

/-- A receive that was left open gets its bytes when they are there, in one session or in
another one like it. -/
theorem Later.waited {r : Receive} {next : List Received → Engine} {t u : Session}
    (h : t.Alike u) (hpeer : t.isPeer r.peer = true)
    (hworker : u.worker = .waiting [.pending r] next)
    (ih : ∀ answers {s s' : Session}, s.Alike s' →
      (Session.drive (next answers) s).Alike (Session.drive (next answers) s')) :
    u.run.Alike (Session.drive (.receive [r] next) t) := by
  have hpeer' : u.isPeer r.peer = true := h.isPeer_eq r.peer ▸ hpeer
  rw [run_eq_drive hworker hpeer']
  cases htake : t.take? r.peer (.engine r.channel) r.count with
  | none =>
      rw [drive_receive_none hpeer htake, drive_receive_none hpeer' (h.take_none htake)]
      exact h.symm.of_worker _ _
  | some taken =>
      obtain ⟨bytes, t'⟩ := taken
      obtain ⟨u', htake', halike⟩ := h.take htake
      rw [drive_receive_some hpeer htake, drive_receive_some hpeer' htake']
      exact ih _ halike.symm

/-- An engine that ran before more came and goes on then comes to the same as one that
runs when all is there. -/
theorem Later.drive {e : Engine} (he : e.Sequential) :
    ∀ {more : Nat → Tag → Bytes} {s t u : Session}, Later more s t →
      Later more (Session.drive e s) u → u.worker = (Session.drive e s).worker →
      u.run.Alike (Session.drive e t) := by
  induction he with
  | @send peer channel bytes next _ ih =>
      intro more s t u h hu hworker
      rw [Session.drive] at hu hworker ⊢
      rw [h.isPeer_eq]
      split at hu
      · rename_i hpeer
        rw [if_pos hpeer] at hworker ⊢
        obtain ⟨hsent, hfault⟩ := h.transmit peer (.engine channel) bytes
        generalize s.transmit peer (.engine channel) bytes = sent at hsent hfault hu hworker
        generalize t.transmit peer (.engine channel) bytes = sent' at hsent hfault ⊢
        obtain ⟨s', fault⟩ := sent
        obtain ⟨t', fault'⟩ := sent'
        obtain rfl : fault' = fault := hfault
        cases fault' with
        | none => exact ih none hsent hu hworker
        | some text => exact hsent.ended _ hu hworker
      · rename_i hpeer
        rw [if_neg hpeer] at hworker ⊢
        exact ih _ (h.misaddressed peer) hu hworker
  | @receive requests next one _ ih =>
      intro more s t u h hu hworker
      cases requests with
      | nil => exact ih [] h hu hworker
      | cons r rest =>
          obtain rfl : rest = [] := by simpa using one
          by_cases hpeer : s.isPeer r.peer = true
          · cases htake : s.take? r.peer (.engine r.channel) r.count with
            | none =>
                -- the engine waits, and what came since is there for both
                rw [drive_receive_none hpeer htake] at hu hworker
                have hsame : t.Alike u := h.alike (hu.of_worker s.worker u.worker)
                refine hsame.waited (h.isPeer_eq r.peer ▸ hpeer) hworker ?_
                intro answers s s' hs
                have hrun := ih answers hs (.refl _) rfl
                rwa [drive_run] at hrun
            | some taken =>
                obtain ⟨bytes, s'⟩ := taken
                obtain ⟨t', htake', hlater⟩ := h.take htake
                have hpeer' : t.isPeer r.peer = true := h.isPeer_eq r.peer ▸ hpeer
                rw [drive_receive_some hpeer htake] at hu hworker
                rw [drive_receive_some hpeer' htake']
                exact ih _ hlater hu hworker
          · have hpeer' : ¬ t.isPeer r.peer = true := h.isPeer_eq r.peer ▸ hpeer
            rw [drive_receive_stray hpeer] at hu hworker
            rw [drive_receive_stray hpeer']
            exact ih _ (h.misaddressed r.peer) hu hworker
  | note _ ih =>
      intro more s t u h hu hworker
      exact ih (h.record _) hu hworker
  | keep _ ih =>
      intro more s t u h hu hworker
      exact ih h.kept hu hworker
  | finish result =>
      intro more s t u h hu hworker
      exact h.ended result hu hworker

/-- What an engine does is alike in sessions that are alike. -/
theorem Alike.drive {e : Engine} (he : e.Sequential) {s t : Session} (h : s.Alike t) :
    (Session.drive e s).Alike (Session.drive e t) := by
  have hrun := Later.drive he h (.refl _) rfl
  rwa [drive_run] at hrun

end Session

end JointCircuit

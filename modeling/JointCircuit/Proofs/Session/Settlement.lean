import JointCircuit.Proofs.Session.Agreement

/-!
# One result, one stage

A run of the worker passes through many sessions: one after each message that it sends,
each receive that completes, each stage that it enters.  `Session.path` lists all of them
along a history, also those between two events.

Each is reached from the one before by a move (`Session.Move`), and there are only five:
nothing happens to the stage and the result, the session fails, it succeeds, it enters
a later stage, or the worker ends after a result was stored.  Moves keep the result and
the stage in step (`Session.Move.settled`), so this holds wherever a session is observed.
-/

namespace JointCircuit

/-- The place of a stage in the order of stages.  The two final ones share the last. -/
def Stage.rank : Stage → Nat
  | .created => 0
  | .handshakeSent => 1
  | .handshakeVerified => 2
  | .computing => 3
  | .done => 4
  | .failed => 4

namespace Session

/-! ## The sessions on the way -/

/-- A result is stored first, and the worker ends then. -/
def concludePath (s : Session) (result : Except SessionError Results) : List Session :=
  [s.settle result, s.conclude result]

def greetPath : List Nat → Session → List Session
  | [], _ => []
  | peer :: peers, s =>
      match s.transmit peer .setup s.compiled.fingerprint.bytes with
      | (s, none) => s :: greetPath peers s
      | (s, some _) => [s]

def collectPath : List Greeting → Session → List Session
  | [], _ => []
  | g :: gs, s =>
      if g.isOpen then
        match s.take? g.peer .setup fingerprintSize with
        | none => collectPath gs s
        | some (bytes, s) =>
            let judged := { g with verdict := some (s.compiled.fingerprint.accepts bytes) }
            s :: if s.isEager && judged.differs then [] else collectPath gs s
      else collectPath gs s

def openPath : List Receive → Session → List Session
  | [], _ => []
  | r :: rs, s =>
      if s.isPeer r.peer then openPath rs s
      else s.misaddressed r.peer :: openPath rs (s.misaddressed r.peer)

def tryPath : List Wait → Session → List Session
  | [], _ => []
  | .closed _ :: ws, s => tryPath ws s
  | .pending r :: ws, s =>
      match s.take? r.peer (.engine r.channel) r.count with
      | none => tryPath ws s
      | some (_, s) => s :: tryPath ws s

/-- The sessions an engine passes through. -/
def drivePath : Engine → Session → List Session
  | .send peer channel bytes next, s =>
      if s.isPeer peer then
        match s.transmit peer (.engine channel) bytes with
        | (s, none) => s :: drivePath (next none) s
        | (s, some text) => s :: s.concludePath (s.verdict (.crashed text))
      else
        s.misaddressed peer :: drivePath (next (some (.invalidParty peer))) (s.misaddressed peer)
  | .receive requests next, s =>
      let (before, t) := openWaits requests s
      let (after, u) := tryWaits before t
      openPath requests s ++ (tryPath before t ++
        match Wait.answers? after with
        | some answers => drivePath (next answers) u
        | none => [{ u with worker := .waiting after next }])
  | .note entry next, s => s.record (.noted entry) :: drivePath next (s.record (.noted entry))
  | .keep next, s => { s with kept := true } :: drivePath next { s with kept := true }
  | .finish result, s => s.concludePath (s.verdict result)

def startEnginePath (s : Session) : List Session :=
  let verified := s.advance .handshakeVerified
  let computing := verified.advance .computing
  verified :: computing :: computing.record .started ::
    drivePath s.engine (computing.record .started)

def handshakePath (gs : List Greeting) (s : Session) : List Session :=
  let (after, t) := collect gs s
  collectPath gs s ++
    match t.handshake after with
    | .matched => t.startEnginePath
    | .unfinished => [{ t with worker := .greeting after }]
    | .mismatch peer => t.concludePath (.error (.setupMismatch (t.nameOf peer)))

/-- The sessions a run of the worker passes through. -/
def runPath (s : Session) : List Session :=
  match s.worker with
  | .fresh =>
      greetPath s.peers s ++
        match greet s.peers s with
        | (s, true) =>
            s.advance .handshakeSent ::
              handshakePath (s.peers.map fun peer => ⟨peer, none⟩) (s.advance .handshakeSent)
        | (s, false) => s.concludePath (.error .stopped)
  | .greeting gs => handshakePath gs s
  | .waiting before next =>
      let (after, t) := tryWaits before s
      tryPath before s ++
        match Wait.answers? after with
        | some answers => drivePath (next answers) t
        | none => [{ t with worker := .waiting after next }]
  | .ended => []

/-- The sessions an event passes through. -/
def stepPath (s : Session) : Event → List Session
  | .run => s.runPath
  | .message name bytes =>
      if s.dropped then []
      else
        match s.accept name bytes with
        | .ok s => [s]
        | .error e => s.concludePath (.error (.protocol e))
  | .drop => if s.dropped then [] else s.concludePath (.error .stopped) ++ [s.drop]
  | .keptSend peer channel bytes => [(s.step (.keptSend peer channel bytes)).2]
  | .keptReceive request => [(s.step (.keptReceive request)).2]

/-- The sessions a row of events passes through. -/
def path : Session → List Event → List Session
  | _, [] => []
  | s, e :: es => s.stepPath e ++ path (s.step e).2 es

/-! ## Moves -/

/-- The engine runs, or the session is at a final stage. -/
def Running (s : Session) : Prop := s.stage = .computing ∨ s.stage.isFinal = true

/-- What happens to the stage and the result from one session to the next. -/
inductive Move : Session → Session → Prop where
  /-- Nothing, and the worker does not end. -/
  | keeps {s s' : Session} (stage : s'.stage = s.stage) (result : s'.result = s.result)
      (worker : s'.worker = .ended → s.worker = .ended) : Move s s'
  | fails (s : Session) (e : SessionError) : Move s (s.settle (.error e))
  /-- The session succeeds, which only a running engine can bring about. -/
  | succeeds {s : Session} (h : s.Running) (results : Results) : Move s (s.settle (.ok results))
  /-- It enters a later stage, unless it is at a final one. -/
  | advances {s : Session} (stage : Stage) (h : s.stage.rank < stage.rank)
      (hfinal : stage.isFinal = false) : Move s (s.advance stage)
  /-- The worker ends after a result was stored. -/
  | halts {s : Session} (h : s.result.isSome) : Move s s.halt

/-- The result and the stage are in step, and a worker that ended left a result. -/
structure Settled (s : Session) : Prop where
  stage : match s.result with
    | none => s.stage.isFinal = false
    | some (.ok _) => s.stage = .done
    | some (.error _) => s.stage = .failed
  worker : s.worker = .ended → s.result ≠ none

/-- A session comes after another one: its stage is the same or a later one, and a result
stays. -/
structure Follows (s s' : Session) : Prop where
  stage : s.stage = s'.stage ∨ s.stage.rank < s'.stage.rank
  result : ∀ r, s.result = some r → s'.result = some r

theorem Follows.refl (s : Session) : s.Follows s := ⟨.inl rfl, fun _ h => h⟩

theorem Follows.trans {s s' s'' : Session} (h : s.Follows s') (h' : s'.Follows s'') :
    s.Follows s'' := by
  refine ⟨?_, fun r hr => h'.result r (h.result r hr)⟩
  rcases h.stage with heq | hlt
  · exact heq ▸ h'.stage
  · rcases h'.stage with heq' | hlt'
    · exact .inr (heq' ▸ hlt)
    · exact .inr (Nat.lt_trans hlt hlt')

theorem advance_of_final {s : Session} (h : s.stage.isFinal = true) (stage : Stage) :
    s.advance stage = s := by
  rw [advance, if_pos h]

theorem advance_of_open {s : Session} (h : s.stage.isFinal = false) (stage : Stage) :
    s.advance stage = { s with stage } := by
  rw [advance, if_neg (by simp [h])]

theorem settle_of_some {s : Session} {r : Except SessionError Results} (h : s.result = some r)
    (result : Except SessionError Results) : s.settle result = s := by
  simp only [settle, h]

/-- The stage that goes with a result. -/
def stageOf : Except SessionError Results → Stage
  | .ok _ => .done
  | .error _ => .failed

theorem settle_of_none {s : Session} (h : s.result = none) (hstage : s.stage.isFinal = false)
    (result : Except SessionError Results) :
    s.settle result = { s with stage := stageOf result, result := some result } := by
  cases result <;> simp only [settle, h, advance_of_open hstage] <;> rfl

namespace Settled

variable {s s' : Session}

theorem stage_of_none (h : s.Settled) (hnone : s.result = none) : s.stage.isFinal = false := by
  have hstage := h.stage
  rwa [hnone] at hstage

theorem stage_of_some (h : s.Settled) {r : Except SessionError Results}
    (hsome : s.result = some r) : s.stage = stageOf r := by
  have hstage := h.stage
  rw [hsome] at hstage
  cases r <;> exact hstage

theorem result_of_final (h : s.Settled) (hfinal : s.stage.isFinal = true) :
    ∃ r, s.result = some r := by
  cases hresult : s.result with
  | none =>
      rw [h.stage_of_none hresult] at hfinal
      cases hfinal
  | some r => exact ⟨r, rfl⟩

/-- Storing a result keeps stage and result in step. -/
theorem settle (h : s.Settled) (result : Except SessionError Results) :
    (s.settle result).Settled := by
  cases hresult : s.result with
  | some r => rwa [settle_of_some hresult]
  | none =>
      rw [settle_of_none hresult (h.stage_of_none hresult)]
      refine ⟨?_, fun _ => Option.some_ne_none _⟩
      cases result <;> rfl

end Settled

/-- A result is stored when there is none, and the stage is the one that goes with it. -/
theorem Settled.settle_follows {s : Session} (h : s.Settled)
    (result : Except SessionError Results) : s.Follows (s.settle result) := by
  cases hresult : s.result with
  | some r =>
      rw [settle_of_some hresult]
      exact .refl s
  | none =>
      have hopen := h.stage_of_none hresult
      rw [settle_of_none hresult hopen]
      refine ⟨.inr ?_, fun r hr => by rw [hresult] at hr; cases hr⟩
      cases result <;> cases hstage : s.stage <;> simp_all [stageOf, Stage.rank, Stage.isFinal]

namespace Move

variable {s s' : Session}

/-- A move keeps the result and the stage in step. -/
theorem settled (h : Move s s') (hs : s.Settled) : s'.Settled := by
  cases h with
  | keeps stage result worker =>
      refine ⟨?_, fun hended => result ▸ hs.worker (worker hended)⟩
      rw [result, stage]
      exact hs.stage
  | fails e => exact hs.settle _
  | succeeds h results => exact hs.settle _
  | advances stage h hfinal =>
      cases hold : s.stage.isFinal with
      | true => rwa [advance_of_final hold]
      | false =>
          rw [advance_of_open hold]
          refine ⟨?_, hs.worker⟩
          cases hresult : s.result with
          | none => simpa only [hresult] using hfinal
          | some r =>
              rw [hs.stage_of_some hresult] at hold
              cases r <;> cases hold
  | halts h => exact ⟨hs.stage, fun _ => Option.isSome_iff_ne_none.mp h⟩

theorem follows (h : Move s s') (hs : s.Settled) : s.Follows s' := by
  cases h with
  | keeps stage result worker => exact ⟨.inl stage.symm, fun r hr => result.trans hr⟩
  | fails e => exact hs.settle_follows _
  | succeeds h results => exact hs.settle_follows _
  | advances stage h hfinal =>
      cases hold : s.stage.isFinal with
      | true =>
          rw [advance_of_final hold]
          exact .refl s
      | false =>
          rw [advance_of_open hold]
          exact ⟨.inr h, fun r hr => hr⟩
  | halts h => exact ⟨.inl rfl, fun r hr => hr⟩

/-- Only a session whose engine runs becomes done. -/
theorem stage_of_done (h : Move s s') (hs : s.Settled) (hdone : s'.stage = .done) :
    s.stage = .done ∨ s.stage = .computing := by
  cases h with
  | keeps stage result worker => exact .inl (stage ▸ hdone)
  | fails e =>
      cases hresult : s.result with
      | some r =>
          rw [settle_of_some hresult] at hdone
          exact .inl hdone
      | none =>
          rw [settle_of_none hresult (hs.stage_of_none hresult)] at hdone
          cases hdone
  | succeeds h results =>
      refine h.symm.imp_left fun hfinal => ?_
      obtain ⟨r, hr⟩ := hs.result_of_final hfinal
      rwa [settle_of_some hr] at hdone
  | advances stage h hfinal =>
      cases hold : s.stage.isFinal with
      | true =>
          rw [advance_of_final hold] at hdone
          exact .inl hdone
      | false =>
          rw [advance_of_open hold] at hdone
          obtain rfl : stage = .done := hdone
          cases hfinal
  | halts h => exact .inl hdone

end Move

/-- A session leads to another one through a row of sessions, by moves. -/
inductive Leads : Session → List Session → Session → Prop where
  | refl (s : Session) : Leads s [] s
  | head {s t u : Session} {p : List Session} (h : Move s t) (rest : Leads t p u) :
      Leads s (t :: p) u

namespace Leads

variable {s t u : Session} {p q : List Session}

theorem single (h : Move s t) : Leads s [t] t := .head h (.refl t)

theorem trans (h : Leads s p t) (h' : Leads t q u) : Leads s (p ++ q) u := by
  induction h with
  | refl s => exact h'
  | head hmove rest ih => exact .head hmove (ih h')

theorem getLastD_eq (h : Leads s p t) : p.getLastD s = t := by
  induction h with
  | refl s => rfl
  | head hmove rest ih => rw [List.getLastD_cons, ih]

/-- What moves keep holds all the way. -/
theorem settled (h : Leads s p t) (hs : s.Settled) : ∀ u ∈ s :: p, u.Settled := by
  induction h with
  | refl s => simpa using hs
  | head hmove rest ih => exact List.forall_mem_cons.mpr ⟨hs, ih (hmove.settled hs)⟩

theorem isChain (h : Leads s p t) (hs : s.Settled) :
    List.IsChain (fun u v => v.stage = .done → u.stage = .done ∨ u.stage = .computing)
      (s :: p) := by
  induction h with
  | refl s => exact .singleton s
  | head hmove rest ih =>
      exact .cons_cons (hmove.stage_of_done hs) (ih (hmove.settled hs))

theorem pairwise (h : Leads s p t) (hs : s.Settled) : (s :: p).Pairwise Follows := by
  induction h with
  | refl s => exact List.pairwise_singleton _ s
  | head hmove rest ih =>
      have hrest := ih (hmove.settled hs)
      have hfirst := hmove.follows hs
      refine List.pairwise_cons.mpr ⟨List.forall_mem_cons.mpr ⟨hfirst, fun v hv => ?_⟩, hrest⟩
      exact hfirst.trans ((List.pairwise_cons.mp hrest).1 v hv)

end Leads

/-! ## Every path is made of moves -/

theorem Running.settle {s : Session} (h : s.Running) (result : Except SessionError Results) :
    (s.settle result).Running := by
  rw [Running, settle_eq]
  exact settledStage_running h result

namespace Move

variable {s s' : Session}

theorem running (h : Move s s') (hs : s.Running) : s'.Running := by
  cases h with
  | keeps stage result worker => rwa [Running, stage]
  | fails e => exact hs.settle (.error e)
  | succeeds h results => exact hs.settle (.ok results)
  | advances stage h hfinal =>
      rcases hs with hstage | hold
      · -- no stage but the final ones is later than `computing`
        rw [hstage] at h
        cases stage <;> first | exact absurd h (by decide) | exact absurd hfinal (by decide)
      · rw [advance_of_final hold]
        exact .inr hold
  | halts h => exact hs

theorem transmit (s : Session) (peer : Nat) (tag : Tag) (payload : Bytes) :
    Move s (s.transmit peer tag payload).1 := by
  rw [transmit_eq]
  exact .keeps rfl rfl id

theorem take {peer count : Nat} {tag : Tag} {bytes : Bytes}
    (h : s.take? peer tag count = some (bytes, s')) : Move s s' := by
  obtain ⟨mailbox, _, rfl⟩ := take?_eq_some.mp h
  exact .keeps rfl rfl id

theorem misaddressed (s : Session) (index : Nat) : Move s (s.misaddressed index) := .fails s _

end Move

theorem Leads.running {s t : Session} {p : List Session} (h : Leads s p t) (hs : s.Running) :
    t.Running := by
  induction h with
  | refl s => exact hs
  | head hmove rest ih => exact ih (hmove.running hs)

theorem halts_leads {s : Session} {result : Except SessionError Results}
    (h : Move s (s.settle result)) : Leads s (s.concludePath result) (s.conclude result) := by
  refine .head h (.single (.halts ?_))
  rw [settle_eq]
  rfl

theorem fail_leads (s : Session) (e : SessionError) :
    Leads s (s.concludePath (.error e)) (s.conclude (.error e)) :=
  halts_leads (.fails s e)

theorem finish_leads {s : Session} (h : s.Running) (result : EngineResult) :
    Leads s (s.concludePath (s.verdict result)) (s.finish result) := by
  rw [finish_eq]
  cases s.verdict result with
  | ok results => exact halts_leads (.succeeds h results)
  | error e => exact s.fail_leads e

theorem greet_leads :
    ∀ (peers : List Nat) (s : Session), Leads s (greetPath peers s) (greet peers s).1
  | [], s => .refl s
  | peer :: peers, s => by
      have hsend := Move.transmit s peer .setup s.compiled.fingerprint.bytes
      rw [greet, greetPath]
      generalize s.transmit peer .setup s.compiled.fingerprint.bytes = sent at hsend ⊢
      obtain ⟨t, fault⟩ := sent
      cases fault with
      | none => exact .head hsend (greet_leads peers t)
      | some text => exact .single hsend

theorem collect_leads :
    ∀ (gs : List Greeting) (s : Session), Leads s (collectPath gs s) (collect gs s).2
  | [], s => .refl s
  | g :: gs, s => by
      rw [collect, collectPath]
      split
      · cases htake : s.take? g.peer .setup fingerprintSize with
        | none => exact collect_leads gs s
        | some taken =>
            obtain ⟨bytes, t⟩ := taken
            simp only
            split
            · exact .single (.take htake)
            · exact .head (.take htake) (collect_leads gs t)
      · exact collect_leads gs s

theorem openWaits_leads :
    ∀ (rs : List Receive) (s : Session), Leads s (openPath rs s) (openWaits rs s).2
  | [], s => .refl s
  | r :: rs, s => by
      rw [openWaits, openPath]
      split
      · exact openWaits_leads rs s
      · exact .head (.misaddressed s r.peer) (openWaits_leads rs _)

theorem tryWaits_leads :
    ∀ (ws : List Wait) (s : Session), Leads s (tryPath ws s) (tryWaits ws s).2
  | [], s => .refl s
  | .closed answer :: ws, s => tryWaits_leads ws s
  | .pending r :: ws, s => by
      rw [tryWaits, tryPath]
      cases htake : s.take? r.peer (.engine r.channel) r.count with
      | none => exact tryWaits_leads ws s
      | some taken =>
          obtain ⟨bytes, t⟩ := taken
          exact .head (.take htake) (tryWaits_leads ws t)

/-- A worker that waits has not ended. -/
theorem Move.waits (s : Session) {w : Worker} (h : w ≠ .ended) : Move s { s with worker := w } :=
  .keeps rfl rfl fun hended => absurd hended h

theorem drive_leads :
    ∀ (e : Engine) {s : Session}, s.Running → Leads s (drivePath e s) (drive e s) := by
  intro e
  induction e with
  | send peer channel bytes next ih =>
      intro s hs
      rw [drive, drivePath]
      split
      · have hsend := Move.transmit s peer (.engine channel) bytes
        generalize s.transmit peer (.engine channel) bytes = sent at hsend ⊢
        obtain ⟨t, fault⟩ := sent
        cases fault with
        | none => exact .head hsend (ih none (hsend.running hs))
        | some text => exact .head hsend (finish_leads (hsend.running hs) _)
      · have hmove := Move.misaddressed s peer
        exact .head hmove (ih _ (hmove.running hs))
  | receive requests next ih =>
      intro s hs
      have hopen := openWaits_leads requests s
      have htry := tryWaits_leads (openWaits requests s).1 (openWaits requests s).2
      rw [drive, drivePath]
      simp only
      refine hopen.trans (htry.trans ?_)
      cases Wait.answers? (tryWaits (openWaits requests s).1 (openWaits requests s).2).1 with
      | some answers => exact ih answers (htry.running (hopen.running hs))
      | none => exact .single (.waits _ (by simp))
  | note entry next ih =>
      intro s hs
      have hmove : Move s (s.record (.noted entry)) := .keeps rfl rfl id
      exact .head hmove (ih (hmove.running hs))
  | keep next ih =>
      intro s hs
      have hmove : Move s { s with kept := true } := .keeps rfl rfl id
      exact .head hmove (ih (hmove.running hs))
  | finish result => exact fun hs => finish_leads hs result

/-- The engine starts after the fingerprints were compared. -/
theorem startEngine_leads {s : Session} (h : s.stage = .handshakeSent) :
    Leads s s.startEnginePath s.startEngine := by
  have hverified : s.advance .handshakeVerified = { s with stage := .handshakeVerified } :=
    advance_of_open (by rw [h]; rfl) _
  have hcomputing : (s.advance .handshakeVerified).advance .computing =
      { s with stage := .computing } := by
    rw [hverified]
    rfl
  refine .head (.advances _ (by rw [h]; decide) rfl) ?_
  refine .head (.advances _ ?_ rfl) ?_
  · rw [hverified]
    exact Nat.lt_succ_self 2
  refine .head (.keeps rfl rfl id) (drive_leads s.engine ?_)
  rw [hcomputing]
  exact .inl rfl

theorem runHandshake_leads (gs : List Greeting) {s : Session} (h : s.stage = .handshakeSent) :
    Leads s (handshakePath gs s) (s.runHandshake gs) := by
  have hstage : (collect gs s).2.stage = .handshakeSent := by
    obtain ⟨mailbox, takes, heq, _⟩ := (collect_collected gs s).frame
    rw [heq]
    exact h
  rw [runHandshake, handshakePath]
  refine (collect_leads gs s).trans ?_
  generalize collect gs s = collected at hstage ⊢
  obtain ⟨after, t⟩ := collected
  simp only
  cases t.handshake after with
  | matched => exact startEngine_leads hstage
  | unfinished => exact .single (.waits t nofun)
  | mismatch peer => exact t.fail_leads _

theorem Standing.running {s : Session} (h : s.Standing) {ws : List Wait}
    {next : List Received → Engine} (hworker : s.worker = .waiting ws next) : s.Running := by
  cases h with
  | fresh worker => cases hworker.symm.trans worker
  | greeted worker => cases hworker.symm.trans worker
  | barred h => cases hworker.symm.trans h.worker
  | engaged h rest => exact h.stage

theorem Standing.created {s : Session} (h : s.Standing) (hworker : s.worker = .fresh) :
    s.stage = .created := by
  cases h with
  | fresh worker stage => exact stage
  | greeted worker => cases hworker.symm.trans worker
  | barred h => cases hworker.symm.trans h.worker
  | engaged h rest =>
      rcases rest with ⟨_, _, hrest⟩ | hrest <;> cases hworker.symm.trans hrest

theorem Standing.run_leads {s : Session} (h : s.Standing) : Leads s s.runPath s.run := by
  rw [Session.run, runPath]
  cases hworker : s.worker with
  | fresh =>
      have hstage : (greet s.peers s).1.stage = .created := by
        obtain ⟨_, _, _, heq, _⟩ := greet_eq s.peers s
        rw [heq]
        exact h.created hworker
      refine (greet_leads s.peers s).trans ?_
      generalize greet s.peers s = greeted at hstage ⊢
      obtain ⟨t, through⟩ := greeted
      cases through with
      | true =>
          refine .head (.advances _ (hstage ▸ by decide) rfl) (runHandshake_leads _ ?_)
          rw [advance_of_open (hstage ▸ rfl)]
      | false => exact t.fail_leads _
  | greeting gs => exact runHandshake_leads gs (h.greeted_of_worker hworker).stage
  | waiting before next =>
      have htry := tryWaits_leads before s
      simp only
      refine htry.trans ?_
      cases Wait.answers? (tryWaits before s).1 with
      | some answers => exact drive_leads _ (htry.running (h.running hworker))
      | none => exact .single (.waits _ nofun)
  | ended => exact .refl s

theorem Standing.step_leads {s : Session} (h : s.Standing) (e : Event) :
    Leads s (s.stepPath e) (s.step e).2 := by
  cases e with
  | run => exact h.run_leads
  | message name bytes =>
      rw [stepPath, Session.step]
      split
      · exact .refl s
      · rw [handleMessage]
        cases haccept : s.accept name bytes with
        | ok t =>
            obtain ⟨_, _, _, _, _, _, _, rfl⟩ := accept_eq_ok.mp haccept
            exact .single (.keeps rfl rfl id)
        | error e => exact s.fail_leads _
  | drop =>
      rw [stepPath, Session.step]
      split
      · exact .refl s
      · exact (s.fail_leads _).trans (.single (.keeps rfl rfl id))
  | keptSend peer channel bytes =>
      refine .single ?_
      rw [Session.step]
      split
      · rw [keptSend]
        split
        · have hsend := Move.transmit s peer (.engine channel) bytes
          split <;> rename_i heq <;> rw [heq] at hsend <;> exact hsend
        · exact .misaddressed s peer
      · exact .keeps rfl rfl id
  | keptReceive r =>
      refine .single ?_
      rw [Session.step]
      split
      · rw [keptReceive]
        split
        · cases htake : s.take? r.peer (.engine r.channel) r.count with
          | none => exact .keeps rfl rfl id
          | some taken => exact .take htake
        · exact .misaddressed s r.peer
      · exact .keeps rfl rfl id

theorem Standing.steps_leads {s : Session} (h : s.Standing) (es : List Event) :
    Leads s (s.path es) (s.steps es) := by
  induction es generalizing s with
  | nil => exact .refl s
  | cons e es ih => exact (h.step_leads e).trans (ih (h.step e))

/-! ## Settlement -/

theorem start_settled {c : Compiled} {name : String} {values : Values} {program : EngineProgram}
    {faulty : Nat → Option String} {s : Session} (h : start c name values program faulty = .ok s) :
    s.Settled := by
  obtain ⟨_, _, _, _, rfl⟩ := start_eq_ok h
  exact ⟨rfl, nofun⟩

theorem Settled.result_iff {s : Session} (h : s.Settled) :
    (s.result = none ↔ s.stage ≠ .done ∧ s.stage ≠ .failed) ∧
    ((∃ results, s.result = some (.ok results)) ↔ s.stage = .done) ∧
    ((∃ e, s.result = some (.error e)) ↔ s.stage = .failed) := by
  cases hresult : s.result with
  | none =>
      have hopen := h.stage_of_none hresult
      cases hstage : s.stage <;> simp_all [Stage.isFinal]
  | some r =>
      have hstage := h.stage_of_some hresult
      cases r <;> simp [hstage, stageOf]

/-- A session settles once, along every history, in every session on the way.  Its result
and its stage are in step, neither goes back, it becomes done only while its engine
runs, and a worker that has ended left a result. -/
theorem settles_once {c : Compiled} {name : String} {values : Values} {program : EngineProgram}
    {faulty : Nat → Option String} {s : Session} (h : start c name values program faulty = .ok s)
    (es : List Event) :
    (s.path es).getLastD s = s.steps es ∧
    (∀ t ∈ s :: s.path es,
      (t.result = none ↔ t.stage ≠ .done ∧ t.stage ≠ .failed) ∧
      ((∃ results, t.result = some (.ok results)) ↔ t.stage = .done) ∧
      ((∃ e, t.result = some (.error e)) ↔ t.stage = .failed) ∧
      (t.worker = .ended → t.result ≠ none)) ∧
    (s :: s.path es).Pairwise (fun t u =>
      (t.stage = u.stage ∨ t.stage.rank < u.stage.rank) ∧
      ∀ r, t.result = some r → u.result = some r) ∧
    List.IsChain (fun t u => u.stage = .done → t.stage = .done ∨ t.stage = .computing)
      (s :: s.path es) := by
  have hleads := (start_standing h).steps_leads es
  have hsettled := start_settled h
  refine ⟨hleads.getLastD_eq, fun t ht => ?_, ?_, hleads.isChain hsettled⟩
  · have ht := hleads.settled hsettled t ht
    obtain ⟨hnone, hdone, hfailed⟩ := ht.result_iff
    exact ⟨hnone, hdone, hfailed, ht.worker⟩
  · exact (hleads.pairwise hsettled).imp fun hfollows => ⟨hfollows.stage, hfollows.result⟩

/-- An engine that keeps its access, addresses its own party and then returns a bit. -/
def strayProgram : EngineProgram :=
  { least := 2
    most := 2
    acts := fun _ => .keep (.send 0 .a [] fun _ => .finish (.returned [true])) }

/-- The engine runs to its end, a bad message follows, and the kept access is used wrongly. -/
def strayHistory : List Event :=
  [.message "bob" (0 :: List.replicate 32 7), .run, .message "bob" [], .keptSend 2 .b [], .drop]

theorem settles_once_stray : ∃ s : Session,
    start pairCompiled "alice" (.ofList [("a", .int 1)]) strayProgram (fun _ => none) = .ok s ∧
    ((s :: s.path strayHistory).map Session.stage).eraseDups =
      [.created, .handshakeSent, .handshakeVerified, .computing, .failed] ∧
    (s.steps strayHistory).result = some (.error (.protocol (.invalidParty 0))) ∧
    ∀ t ∈ s :: s.path strayHistory, t.worker = .ended → t.result ≠ none := by
  obtain ⟨s, hstart, hstages, hresult⟩ : ∃ s : Session,
      start pairCompiled "alice" (.ofList [("a", .int 1)]) strayProgram (fun _ => none) =
        .ok s ∧
      ((s :: s.path strayHistory).map Session.stage).eraseDups =
        [.created, .handshakeSent, .handshakeVerified, .computing, .failed] ∧
      (s.steps strayHistory).result = some (.error (.protocol (.invalidParty 0))) :=
    ⟨_, rfl, rfl, rfl⟩
  obtain ⟨_, hall, _⟩ := settles_once hstart strayHistory
  exact ⟨s, hstart, hstages, hresult, fun t ht => (hall t ht).2.2.2⟩

end Session

end JointCircuit

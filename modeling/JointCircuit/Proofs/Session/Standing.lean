import JointCircuit.Proofs.Session.Greeting

/-!
# Where a session stands

A session that was started is always in one of four positions: nothing was done, the
handshake goes on, it ended before the engine was started, or the engine was started.
`Session.Standing` says what holds of the deeds, the result and the inboxes in each.

Events keep a standing (`Session.Standing.step`), so every history of a session does.
The engine itself enters only through its acts.
-/

namespace JointCircuit

/-- A deed of the handshake. -/
def Deed.OfHandshake : Deed → Prop
  | .sent _ tag _ => tag = .setup
  | .took _ tag _ => tag = .setup
  | _ => False

/-- A deed of an engine. -/
def Deed.OfEngine : Deed → Prop
  | .sent _ tag _ => tag ≠ .setup
  | .took _ tag _ => tag ≠ .setup
  | .started => False
  | .noted _ => True

/-- Bytes have another fingerprint at their front. -/
def Fingerprint.Rejects (f : Fingerprint) (bytes : Bytes) : Prop :=
  fingerprintSize ≤ bytes.length ∧ bytes.take fingerprintSize ≠ f.bytes

theorem Fingerprint.Rejects.mono {f : Fingerprint} {bytes more : Bytes} (h : f.Rejects bytes)
    (hfront : bytes <+: more) : f.Rejects more := by
  obtain ⟨rest, rfl⟩ := hfront
  refine ⟨Nat.le_trans h.1 (List.prefix_append _ _).length_le, ?_⟩
  rw [List.take_append_of_le_length h.1]
  exact h.2

namespace Session

/-- The messages that greet all peers. -/
def greetings (s : Session) : List (Nat × Bytes) :=
  s.peers.map fun peer => (peer, frame .setup s.compiled.fingerprint.bytes)

/-- A peer with a name sent a whole fingerprint, and another one. -/
def Mismatched (s : Session) (name : String) : Prop :=
  ∃ peer ∈ s.peers, s.nameOf peer = name ∧
    s.compiled.fingerprint.Rejects (s.inbox peer .setup)

/-- A session all of whose peers were greeted, and what it knows of them. -/
structure Greeted (s : Session) (gs : List Greeting) : Prop where
  stage : s.stage = .handshakeSent
  result : s.result = none
  kept : s.kept = false
  deeds : ∀ d ∈ s.deeds, d.OfHandshake
  sent : sentAmong s.deeds.toList = s.greetings
  peers : gs.map Greeting.peer = s.peers
  /-- They say what was taken. -/
  hears : ∀ g ∈ gs, s.Hears g

/-- A session that ended before it started its engine. -/
structure Barred (s : Session) : Prop where
  worker : s.worker = .ended
  stage : s.stage = .failed
  result : s.result.isSome
  kept : s.kept = false
  deeds : ∀ d ∈ s.deeds, d.OfHandshake
  /-- The messages are the first of those that greet all peers. -/
  sent : sentAmong s.deeds.toList <+: s.greetings
  /-- A peer that is blamed did send another fingerprint. -/
  blame : ∀ name, s.result = some (.error (.setupMismatch name)) → s.Mismatched name

/-- A session that started its engine. -/
structure Engaged (s : Session) : Prop where
  /-- All peers sent the fingerprint before anything else. -/
  agreed : ∀ peer ∈ s.peers, s.compiled.fingerprint.bytes <+: s.inbox peer .setup
  /-- All peers were greeted before the start, and all deeds after it are those of an
  engine. -/
  deeds : ∃ before after, s.deeds.toList = before ++ .started :: after ∧
    (∀ d ∈ before, d.OfHandshake) ∧ sentAmong before = s.greetings ∧ ∀ d ∈ after, d.OfEngine
  /-- The engine runs, or the session is at a final stage. -/
  stage : s.stage = .computing ∨ s.stage.isFinal = true
  /-- No peer is blamed. -/
  blame : ∀ name, s.result ≠ some (.error (.setupMismatch name))
  /-- The receives that wait address other parties. -/
  valid : ∀ ws next, s.worker = .waiting ws next → s.Valid ws

/-- The worker waits for its engine's bytes or has ended. -/
def Resting (s : Session) : Prop := (∃ ws next, s.worker = .waiting ws next) ∨ s.worker = .ended

/-- Where a session stands. -/
inductive Standing (s : Session) : Prop where
  /-- Nothing was done. -/
  | fresh (worker : s.worker = .fresh) (stage : s.stage = .created) (result : s.result = none)
      (kept : s.kept = false) (attempts : s.attempts = 0) (deeds : s.deeds = #[])
  /-- The handshake goes on. -/
  | greeted {gs : List Greeting} (worker : s.worker = .greeting gs) (h : s.Greeted gs)
  /-- It ended before the engine was started. -/
  | barred (h : s.Barred)
  /-- The engine was started. -/
  | engaged (h : s.Engaged) (rest : s.Resting)

theorem Standing.valid {s : Session} (h : s.Standing) {ws : List Wait}
    {next : List Received → Engine} (hworker : s.worker = .waiting ws next) : s.Valid ws := by
  cases h with
  | fresh worker => cases hworker.symm.trans worker
  | greeted worker => cases hworker.symm.trans worker
  | barred h => cases hworker.symm.trans h.worker
  | engaged h rest => exact h.valid ws next hworker

theorem Standing.greeted_of_worker {s : Session} (h : s.Standing) {gs : List Greeting}
    (hworker : s.worker = .greeting gs) : s.Greeted gs := by
  cases h with
  | fresh worker => cases hworker.symm.trans worker
  | greeted worker h =>
      obtain rfl := Worker.greeting.inj (hworker.symm.trans worker)
      exact h
  | barred h => cases hworker.symm.trans h.worker
  | engaged h rest =>
      rcases rest with ⟨_, _, hrest⟩ | hrest <;> cases hworker.symm.trans hrest

/-! ## Peers -/

theorem peers_congr {s s' : Session} (hc : s'.compiled = s.compiled) (hp : s'.party = s.party) :
    s'.peers = s.peers := by
  rw [Session.peers, hc, hp, Session.peers]

theorem greetings_congr {s s' : Session} (hc : s'.compiled = s.compiled)
    (hp : s'.party = s.party) : s'.greetings = s.greetings := by
  rw [greetings, peers_congr hc hp, hc, greetings]

theorem nodup_peers (s : Session) : s.peers.Nodup := List.nodup_range.filter _

theorem Mismatched.mono {s s' : Session} {name : String} (hc : s'.compiled = s.compiled)
    (hp : s'.party = s.party)
    (hinbox : ∀ peer, s.inbox peer .setup <+: s'.inbox peer .setup) (h : s.Mismatched name) :
    s'.Mismatched name := by
  obtain ⟨peer, hpeer, hname, hrejects⟩ := h
  refine ⟨peer, peers_congr hc hp ▸ hpeer, ?_, hc ▸ hrejects.mono (hinbox peer)⟩
  rw [nameOf, names, hc]
  exact hname

/-! ## Deeds of the handshake and of engines -/

/-- What deeds send goes to other parties. -/
def Addressed (s : Session) (ds : List Deed) : Prop :=
  ∀ peer tag payload, Deed.sent peer tag payload ∈ ds → s.isPeer peer = true

theorem addressed_nil (s : Session) : s.Addressed [] := fun _ _ _ h => absurd h List.not_mem_nil

theorem Act.deeds {s s' : Session} (h : Act s s') :
    ∃ ds, s'.deeds.toList = s.deeds.toList ++ ds ∧ (∀ d ∈ ds, d.OfEngine) ∧ s.Addressed ds := by
  cases h with
  | sent channel bytes h =>
      refine ⟨[_], Array.toList_push, by simp [Deed.OfEngine], fun p t payload hmem => ?_⟩
      cases List.mem_singleton.mp hmem
      exact h
  | took h htake =>
      exact ⟨[_], Array.toList_push, by simp [Deed.OfEngine], by simp [Addressed]⟩
  | noted entry => exact ⟨[_], Array.toList_push, by simp [Deed.OfEngine], by simp [Addressed]⟩
  | misaddressed index =>
      rw [Session.misaddressed, settle_eq]
      exact ⟨[], by simp, by simp, s.addressed_nil⟩
  | ends result =>
      rw [finish_eq, conclude_eq]
      exact ⟨[], by simp, by simp, s.addressed_nil⟩
  | _ => exact ⟨[], by simp, by simp, addressed_nil _⟩

theorem verdict_ne (s : Session) (result : EngineResult) (name : String) :
    s.verdict result ≠ .error (.setupMismatch name) := by
  cases result with
  | returned bits =>
      rw [verdict, outcome]
      split <;> simp
  | failed text => simp [verdict]
  | crashed text => simp [verdict]

/-- A result that is there after settling on another one was there before. -/
theorem eq_some_of_getD {α : Type} {old : Option α} {new result : α} (hne : new ≠ result)
    (h : some (old.getD new) = some result) : old = some result := by
  cases old with
  | none => exact absurd (Option.some.inj h) hne
  | some _ => exact h

theorem Act.blame {s s' : Session} (h : Act s s') {name : String}
    (hresult : s'.result = some (.error (.setupMismatch name))) :
    s.result = some (.error (.setupMismatch name)) := by
  cases h with
  | misaddressed index =>
      rw [Session.misaddressed, settle_eq] at hresult
      exact eq_some_of_getD (by simp) hresult
  | ends result =>
      rw [finish_eq, conclude_eq] at hresult
      exact eq_some_of_getD (s.verdict_ne result name) hresult
  | _ => exact hresult

theorem Act.valid {s s' : Session} (h : Act s s')
    (hvalid : ∀ ws next, s.worker = .waiting ws next → s.Valid ws) :
    ∀ ws next, s'.worker = .waiting ws next → s'.Valid ws := by
  have hiff : ∀ ws, s'.Valid ws ↔ s.Valid ws := fun ws => Acts.valid_iff (.single h)
  intro ws next hworker
  rw [hiff]
  cases h with
  | waits next' h =>
      cases hworker
      exact h
  | misaddressed index =>
      rw [Session.misaddressed, settle_eq] at hworker
      exact hvalid ws next hworker
  | ends result =>
      rw [finish_eq, conclude_eq] at hworker
      cases hworker
  | _ => exact hvalid ws next hworker

theorem settledStage_running {s : Session} (h : s.stage = .computing ∨ s.stage.isFinal = true)
    (result : Except SessionError Results) :
    s.settledStage result = .computing ∨ (s.settledStage result).isFinal = true := by
  unfold settledStage
  split
  · exact h
  · cases result <;> exact .inr rfl

theorem Act.stage {s s' : Session} (hact : Act s s')
    (h : s.stage = .computing ∨ s.stage.isFinal = true) :
    s'.stage = .computing ∨ s'.stage.isFinal = true := by
  cases hact with
  | misaddressed index =>
      rw [Session.misaddressed, settle_eq]
      exact settledStage_running h (.error (.protocol (.invalidParty index)))
  | ends result =>
      rw [finish_eq, conclude_eq]
      exact settledStage_running h (s.verdict result)
  | _ => exact h

theorem Engaged.act {s s' : Session} (h : s.Engaged) (hact : Act s s') : s'.Engaged := by
  obtain ⟨hc, hp, _, _⟩ := hact.frame
  obtain ⟨before, after, hdeeds, hbefore, hsent, hafter⟩ := h.deeds
  obtain ⟨ds, hds, hengine, _⟩ := hact.deeds
  refine ⟨?_, ?_, hact.stage h.stage, fun name hname => h.blame name (hact.blame hname),
    hact.valid h.valid⟩
  · rw [peers_congr hc hp, hc]
    intro peer hpeer
    rw [hact.inbox_eq]
    exact h.agreed peer hpeer
  · refine ⟨before, after ++ ds, by simp [hds, hdeeds], hbefore, ?_, fun d hd => ?_⟩
    · rw [hsent, greetings_congr hc hp]
    · exact (List.mem_append.mp hd).elim (hafter d) (hengine d)

theorem Engaged.acts {s s' : Session} (h : s.Engaged) (hacts : Acts s s') : s'.Engaged := by
  induction hacts with
  | refl => exact h
  | tail _ hact ih => exact ih.act hact

/-! ## The end of a handshake -/

theorem sentAmong_append (ds es : List Deed) :
    sentAmong (ds ++ es) = sentAmong ds ++ sentAmong es :=
  List.filterMap_append

theorem sentAmong_took {ds : List Deed} (h : ∀ d ∈ ds, ∃ peer bytes, d = .took peer .setup bytes) :
    sentAmong ds = [] := by
  rw [sentAmong, List.filterMap_eq_nil_iff]
  intro d hd
  obtain ⟨peer, bytes, rfl⟩ := h d hd
  rfl

theorem sentAmong_greetings (s : Session) (peers : List Nat) :
    sentAmong (peers.map s.greetingTo) =
      peers.map fun peer => (peer, frame .setup s.compiled.fingerprint.bytes) := by
  rw [sentAmong, List.filterMap_map]
  exact List.filterMap_eq_map_iff_forall_eq_some.mpr fun _ _ => rfl

theorem handshake_matched {s : Session} {gs : List Greeting} (h : s.handshake gs = .matched) :
    ∀ g ∈ gs, g.verdict = some true := by
  rw [handshake] at h
  split at h
  · rw [eagerHandshake] at h
    split at h
    · cases h
    · rename_i hfind
      split at h
      · cases h
      · rename_i hany
        intro g hg
        have hdiffers := List.find?_eq_none.mp hfind g hg
        have hopen : ¬ g.isOpen = true := fun hopen => hany (List.any_eq_true.mpr ⟨g, hg, hopen⟩)
        rw [Greeting.differs, beq_iff_eq] at hdiffers
        rw [Greeting.isOpen, beq_iff_eq] at hopen
        cases hverdict : g.verdict with
        | none => exact absurd hverdict hopen
        | some matching =>
            cases matching with
            | false => exact absurd hverdict hdiffers
            | true => rfl
  · induction gs with
    | nil => exact fun _ hg => absurd hg List.not_mem_nil
    | cons g gs ih =>
        rw [patientHandshake] at h
        split at h
        · cases h
        · cases h
        · rename_i hverdict
          exact List.forall_mem_cons.mpr ⟨hverdict, ih h⟩

theorem handshake_mismatch {s : Session} {gs : List Greeting} {peer : Nat}
    (h : s.handshake gs = .mismatch peer) : ∃ g ∈ gs, g.peer = peer ∧ g.verdict = some false := by
  rw [handshake] at h
  split at h
  · rw [eagerHandshake] at h
    split at h
    · rename_i g hfind
      cases h
      have hdiffers := List.find?_some hfind
      rw [Greeting.differs, beq_iff_eq] at hdiffers
      exact ⟨g, List.mem_of_find?_eq_some hfind, rfl, hdiffers⟩
    · split at h <;> cases h
  · induction gs with
    | nil => cases h
    | cons g gs ih =>
        rw [patientHandshake] at h
        split at h
        · cases h
        · rename_i hverdict
          cases h
          exact ⟨g, List.mem_cons_self, rfl, hverdict⟩
        · obtain ⟨q, hq, hpeer⟩ := ih h
          exact ⟨q, List.mem_cons_of_mem _ hq, hpeer⟩

/-- A greeting that matched shows the fingerprint at the front of the inbox. -/
theorem Hears.agreed {s : Session} {g : Greeting} (h : s.Hears g)
    (hverdict : g.verdict = some true) :
    s.compiled.fingerprint.bytes <+: s.inbox g.peer .setup := by
  rw [Hears, hverdict] at h
  have htaken := beq_iff_eq.mp h.2
  rw [← htaken]
  exact s.taken_front g.peer .setup

/-- A greeting that differs shows another fingerprint at the front of the inbox. -/
theorem Hears.rejected {s : Session} {g : Greeting} (h : s.Hears g)
    (hverdict : g.verdict = some false) :
    s.compiled.fingerprint.Rejects (s.inbox g.peer .setup) := by
  rw [Hears, hverdict] at h
  obtain ⟨hlen, hdiffers⟩ := h
  refine Fingerprint.Rejects.mono ⟨hlen ▸ Nat.le_refl _, ?_⟩ (s.taken_front g.peer .setup)
  rw [← hlen, List.take_length]
  intro heq
  rw [heq, Fingerprint.accepts, beq_self_eq_true] at hdiffers
  cases hdiffers

theorem Greeted.collected {s s' : Session} {gs gs' : List Greeting} (h : s.Greeted gs)
    (hcollected : Collected s gs s' gs') : s'.Greeted gs' := by
  obtain ⟨mailbox, takes, rfl, htakes⟩ := hcollected.frame
  refine ⟨h.stage, h.result, h.kept, ?_, ?_, hcollected.peers.trans h.peers, ?_⟩
  · intro d hd
    rcases Array.mem_append.mp hd with hd | hd
    · exact h.deeds d hd
    · obtain ⟨peer, bytes, rfl⟩ := htakes d hd
      rfl
  · simp only [Array.toList_append, sentAmong_append, h.sent]
    rw [sentAmong_took fun d hd => htakes d (Array.mem_toList_iff.mp hd), List.append_nil]
    rfl
  · exact hcollected.hears (h.peers ▸ s.nodup_peers) h.hears

/-- A session in its handshake may end with an error that blames no peer without reason. -/
theorem Greeted.conclude {s : Session} {gs : List Greeting} (h : s.Greeted gs) (e : SessionError)
    (hblame : ∀ name, e = .setupMismatch name → s.Mismatched name) :
    (s.conclude (.error e)).Barred := by
  rw [conclude_eq]
  refine ⟨rfl, ?_, rfl, h.kept, h.deeds, h.sent ▸ List.prefix_rfl, fun name hname => ?_⟩
  · simp [settledStage, h.result, h.stage, Stage.isFinal]
  · simp only [h.result, Option.getD_none, Option.some.injEq, Except.error.injEq] at hname
    exact hblame name hname

/-- When all peers match, the engine can start. -/
theorem Greeted.start {s : Session} {gs : List Greeting} (h : s.Greeted gs)
    (hmatched : ∀ g ∈ gs, g.verdict = some true)
    (hworker : ∀ ws next, s.worker ≠ .waiting ws next) :
    (((s.advance .handshakeVerified).advance .computing).record .started).Engaged := by
  have heq : (s.advance .handshakeVerified).advance .computing =
      { s with stage := .computing } := by
    simp [advance, h.stage, Stage.isFinal]
  rw [heq]
  refine ⟨fun peer hpeer => ?_, ⟨s.deeds.toList, [], by simp [record], ?_, h.sent, by simp⟩,
    .inl rfl, ?_, fun ws next hw => absurd hw (hworker ws next)⟩
  · have hmem : peer ∈ gs.map Greeting.peer := h.peers ▸ hpeer
    obtain ⟨g, hg, rfl⟩ := List.mem_map.mp hmem
    have hinbox := (h.hears g hg).agreed (hmatched g hg)
    rw [inbox, taken_push rfl fun _ _ => rfl]
    exact hinbox
  · exact fun d hd => h.deeds d (Array.mem_toList_iff.mp hd)
  · intro name hname
    have hresult : s.result = some (.error (.setupMismatch name)) := hname
    rw [h.result] at hresult
    cases hresult

/-! ## Runs -/

theorem drive_rests : ∀ (e : Engine) (s : Session), (drive e s).Resting := by
  intro e
  induction e with
  | send peer channel bytes next ih =>
      intro s
      rw [drive]
      split
      · split
        · exact ih none _
        · exact .inr rfl
      · exact ih _ _
  | receive requests next ih =>
      intro s
      rw [drive]
      simp only
      split
      · exact ih _ _
      · exact .inl ⟨_, _, rfl⟩
  | note entry next ih => exact fun s => ih _
  | keep next ih => exact fun s => ih _
  | finish result =>
      intro s
      rw [drive, finish_eq]
      exact .inr rfl

theorem Greeted.runHandshake {s : Session} {gs : List Greeting} (h : s.Greeted gs)
    (hworker : ∀ ws next, s.worker ≠ .waiting ws next) : (s.runHandshake gs).Standing := by
  have hcollected := collect_collected gs s
  have hgreeted := h.collected hcollected
  obtain ⟨_, _, hframe, _⟩ := hcollected.frame
  rw [Session.runHandshake]
  simp only
  split
  · rename_i hmatched
    have hstart := hgreeted.start (handshake_matched hmatched) fun ws next => by
      rw [hframe]
      exact hworker ws next
    exact .engaged (hstart.acts (drive_acts _ _)) (drive_rests _ _)
  · exact .greeted rfl
      ⟨hgreeted.stage, hgreeted.result, hgreeted.kept, hgreeted.deeds, hgreeted.sent,
        hgreeted.peers, hgreeted.hears⟩
  · rename_i peer hmismatch
    obtain ⟨g, hg, rfl, hverdict⟩ := handshake_mismatch hmismatch
    refine .barred (hgreeted.conclude _ fun name hname => ?_)
    cases hname
    exact ⟨g.peer, hgreeted.peers ▸ List.mem_map_of_mem hg, rfl,
      (hgreeted.hears g hg).rejected hverdict⟩

/-- What a session did that greeted the first of its peers and nothing else. -/
theorem greetings_done {s : Session} (hdeeds : s.deeds = #[]) (done : List Nat) :
    (∀ d ∈ s.deeds ++ (done.map s.greetingTo).toArray, d.OfHandshake) ∧
      (sentAmong (s.deeds ++ (done.map s.greetingTo).toArray).toList =
        done.map fun peer => (peer, frame .setup s.compiled.fingerprint.bytes)) ∧
      ∀ peer tag,
        takenAmong (s.deeds ++ (done.map s.greetingTo).toArray).toList peer tag = [] := by
  rw [hdeeds, Array.empty_append, List.toList_toArray]
  refine ⟨fun d hd => ?_, s.sentAmong_greetings done, fun peer tag => ?_⟩
  · rw [List.mem_toArray] at hd
    obtain ⟨peer, _, rfl⟩ := List.mem_map.mp hd
    rfl
  · rw [takenAmong, List.flatMap_eq_nil_iff]
    intro d hd
    obtain ⟨peer, _, rfl⟩ := List.mem_map.mp hd
    rfl

/-- A run of a session that started its engine goes on with it. -/
theorem Engaged.run {s : Session} (h : s.Engaged) (hrest : s.Resting) :
    s.run.Engaged ∧ s.run.Resting := by
  rcases hrest with ⟨ws, next, hworker⟩ | hworker
  · obtain ⟨hacts, hvalid⟩ := tryWaits_acts ws (h.valid ws next hworker)
    rw [Session.run, hworker]
    simp only
    split
    · exact ⟨(h.acts hacts).acts (drive_acts _ _), drive_rests _ _⟩
    · exact ⟨(h.acts hacts).act (.waits _ _ (hacts.valid_iff.mpr hvalid)), .inl ⟨_, _, rfl⟩⟩
  · rw [Session.run, hworker]
    exact ⟨h, .inr hworker⟩

/-- A session that did nothing but greet all its peers is in its handshake. -/
theorem greeted_all {s : Session} (stage : s.stage = .created) (result : s.result = none)
    (kept : s.kept = false) (deeds : s.deeds = #[]) (attempts : Nat) :
    ({ s with attempts, deeds := s.deeds ++ (s.peers.map s.greetingTo).toArray }.advance
      .handshakeSent).Greeted (s.peers.map fun peer => ⟨peer, none⟩) := by
  obtain ⟨hdeeds, hsent, htaken⟩ := greetings_done deeds s.peers
  simp only [advance, stage, Stage.isFinal, Bool.false_eq_true, if_false]
  refine ⟨rfl, result, kept, hdeeds, hsent, ?_, ?_⟩
  · rw [List.map_map]
    exact List.map_id _
  · intro g hg
    obtain ⟨peer, _, rfl⟩ := List.mem_map.mp hg
    exact htaken peer .setup

theorem worker_advance (s : Session) (stage : Stage) : (s.advance stage).worker = s.worker := by
  rw [advance]
  split <;> rfl

theorem Standing.run {s : Session} (h : s.Standing) : s.run.Standing := by
  cases h with
  | fresh worker stage result kept attempts deeds =>
      rw [Session.run, worker]
      simp only
      obtain ⟨done, attempts, hdone, heq, hall⟩ := greet_eq s.peers s
      generalize greet s.peers s = greeted at heq hall ⊢
      obtain ⟨t, through⟩ := greeted
      obtain rfl : t = _ := heq
      cases through with
      | true =>
          obtain rfl := hall rfl
          refine (greeted_all stage result kept deeds attempts).runHandshake fun ws next hw => ?_
          rw [worker_advance] at hw
          cases worker.symm.trans hw
      | false =>
          obtain ⟨hdeeds, hsent, _⟩ := greetings_done deeds done
          refine .barred ?_
          simp only [conclude_eq, result, settledStage, stage, Stage.isFinal]
          refine ⟨rfl, rfl, rfl, kept, hdeeds, ?_, by simp⟩
          simp only [hsent]
          exact hdone.map _
  | greeted worker h =>
      rw [Session.run, worker]
      exact h.runHandshake fun ws next hw => by
        rw [worker] at hw
        cases hw
  | barred h =>
      rw [Session.run, h.worker]
      exact .barred h
  | engaged h rest => exact .engaged (h.run rest).1 (h.run rest).2

/-! ## Events -/

/-- A message that is put into the mailbox changes no standing. -/
theorem Standing.push {s : Session} (h : s.Standing) (p : Nat) (t : Tag) (payload : Bytes) :
    ({ s with mailbox := s.mailbox.push p t payload } : Session).Standing := by
  have hinbox : ∀ peer tag, s.inbox peer tag <+:
      ({ s with mailbox := s.mailbox.push p t payload } : Session).inbox peer tag := by
    intro peer tag
    rw [inbox_push]
    exact List.prefix_append _ _
  cases h with
  | fresh worker stage result kept attempts deeds =>
      exact .fresh worker stage result kept attempts deeds
  | greeted worker h =>
      exact .greeted worker ⟨h.stage, h.result, h.kept, h.deeds, h.sent, h.peers, h.hears⟩
  | barred h =>
      exact .barred ⟨h.worker, h.stage, h.result, h.kept, h.deeds, h.sent,
        fun name hname => Mismatched.mono (s := s) rfl rfl (fun peer => hinbox peer .setup)
          (h.blame name hname)⟩
  | engaged h rest =>
      exact .engaged ⟨fun peer hpeer => (h.agreed peer hpeer).trans (hinbox peer .setup), h.deeds,
        h.stage, h.blame, h.valid⟩ rest

/-- A session may end at any time with an error that blames no peer. -/
theorem Standing.conclude {s : Session} (h : s.Standing) {e : SessionError}
    (hblame : ∀ name, e ≠ .setupMismatch name) : (s.conclude (.error e)).Standing := by
  cases h with
  | fresh worker stage result kept attempts deeds =>
      refine .barred ?_
      simp only [conclude_eq, result, settledStage, stage, Stage.isFinal]
      refine ⟨rfl, rfl, rfl, kept, by simp [deeds], ?_, fun name hname => ?_⟩
      · simp only [deeds]
        exact List.nil_prefix
      · cases hname
        exact absurd rfl (hblame name)
  | greeted worker h => exact .barred (h.conclude e fun name hname => absurd hname (hblame name))
  | barred h =>
      refine .barred ?_
      rw [conclude_eq]
      obtain ⟨old, hold⟩ := Option.isSome_iff_exists.mp h.result
      refine ⟨rfl, ?_, rfl, h.kept, h.deeds, h.sent, fun name hname => h.blame name ?_⟩
      · simp [settledStage, hold, h.stage]
      · simpa [hold] using hname
  | engaged h rest =>
      refine .engaged ?_ (.inr rfl)
      rw [conclude_eq]
      refine ⟨h.agreed, h.deeds, settledStage_running h.stage (.error e),
        fun name hname => h.blame name ?_, by simp⟩
      exact eq_some_of_getD (fun heq => hblame name (Except.error.inj heq)) hname

/-- Letting go of a session changes no standing. -/
theorem Standing.release {s : Session} (h : s.Standing) :
    ({ s with dropped := true } : Session).Standing := by
  cases h with
  | fresh worker stage result kept attempts deeds =>
      exact .fresh worker stage result kept attempts deeds
  | greeted worker h =>
      exact .greeted worker ⟨h.stage, h.result, h.kept, h.deeds, h.sent, h.peers, h.hears⟩
  | barred h =>
      exact .barred ⟨h.worker, h.stage, h.result, h.kept, h.deeds, h.sent, h.blame⟩
  | engaged h rest => exact .engaged ⟨h.agreed, h.deeds, h.stage, h.blame, h.valid⟩ rest

theorem keptSend_acts (s : Session) (peer : Nat) (channel : Channel) (bytes : Bytes) :
    Acts s (s.keptSend peer channel bytes).2 := by
  rw [keptSend]
  split
  · rename_i hpeer
    have hsend := transmit_acts hpeer channel bytes
    split <;> rename_i heq <;> rw [heq] at hsend <;> exact hsend
  · exact .single (.misaddressed s peer)

theorem keptReceive_acts (s : Session) (r : Receive) : Acts s (s.keptReceive r).2 := by
  rw [keptReceive]
  split
  · rename_i hpeer
    split
    · rename_i heq
      exact take?_acts hpeer heq
    · exact .refl
  · exact .single (.misaddressed s r.peer)

theorem Act.rests {s s' : Session} (h : Act s s') (hrest : s.Resting) : s'.Resting := by
  cases h with
  | misaddressed index =>
      rw [Session.misaddressed, settle_eq]
      exact hrest
  | waits next h => exact .inl ⟨_, _, rfl⟩
  | ends result =>
      rw [finish_eq, conclude_eq]
      exact .inr rfl
  | _ => exact hrest

theorem Acts.rests {s s' : Session} (h : Acts s s') (hrest : s.Resting) : s'.Resting := by
  induction h with
  | refl => exact hrest
  | tail _ hact ih => exact hact.rests ih

/-- What an engine kept is used only after the engine was started. -/
theorem Standing.acts {s s' : Session} (h : s.Standing) (hkept : s.kept = true)
    (hacts : Acts s s') : s'.Standing := by
  cases h with
  | fresh worker stage result kept attempts deeds =>
      rw [hkept] at kept
      cases kept
  | greeted worker h =>
      have kept := h.kept
      rw [hkept] at kept
      cases kept
  | barred h =>
      have kept := h.kept
      rw [hkept] at kept
      cases kept
  | engaged h rest => exact .engaged (h.acts hacts) (hacts.rests rest)

/-- Every event keeps a standing. -/
theorem Standing.step {s : Session} (h : s.Standing) (e : Event) : (s.step e).2.Standing := by
  cases e with
  | run => exact h.run
  | message name bytes =>
      rw [Session.step]
      split
      · exact h
      · rw [handleMessage]
        split
        · rename_i s' haccept
          obtain ⟨peer, b, payload, tag, _, _, _, rfl⟩ := accept_eq_ok.mp haccept
          exact h.push peer tag payload
        · exact h.conclude (by simp)
  | drop =>
      rw [Session.step]
      split
      · exact h
      · exact (h.conclude (by simp)).release
  | keptSend peer channel bytes =>
      rw [Session.step]
      split
      · rename_i hkept
        exact h.acts hkept (s.keptSend_acts peer channel bytes)
      · exact h
  | keptReceive request =>
      rw [Session.step]
      split
      · rename_i hkept
        exact h.acts hkept (s.keptReceive_acts request)
      · exact h

theorem Standing.steps {s : Session} (h : s.Standing) (es : List Event) :
    (s.steps es).Standing := by
  induction es generalizing s with
  | nil => exact h
  | cons e es ih => exact ih (h.step e)

/-- A session is started for a party whose values are encoded. -/
theorem start_eq_ok {c : Compiled} {name : String} {values : Values} {program : EngineProgram}
    {faulty : Nat → Option String} {s : Session} (h : start c name values program faulty = .ok s) :
    ∃ party inputs, c.partyIndex? name = some party ∧ c.encodeInput name values = .ok inputs ∧
      s =
        { compiled := c
          party
          engine := program.acts ⟨party, c.parties.length, inputs, c.lowered⟩
          faulty
          mailbox := Mailbox.empty
          stage := .created
          result := none
          worker := .fresh
          attempts := 0
          deeds := #[]
          kept := false
          dropped := false } := by
  rw [start] at h
  split at h
  · cases h
  · split at h
    · cases h
    · rename_i party hparty
      split at h
      · cases h
      · rename_i inputs hinputs
        cases h
        exact ⟨party, inputs, hparty, hinputs, rfl⟩

theorem start_standing {c : Compiled} {name : String} {values : Values} {program : EngineProgram}
    {faulty : Nat → Option String} {s : Session} (h : start c name values program faulty = .ok s) :
    s.Standing := by
  obtain ⟨party, inputs, _, _, rfl⟩ := start_eq_ok h
  exact .fresh rfl rfl rfl rfl rfl rfl

end Session

end JointCircuit

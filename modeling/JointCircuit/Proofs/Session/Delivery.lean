import JointCircuit.Proofs.Session.Later

/-!
# Running before the rest comes

A run before more is delivered can be left out when the session runs afterwards: it comes
to the same (`Session.Standing.run_delivered`).  In the engine this is
`Session.Later.drive`.  In the handshake the fingerprints may be taken earlier or later,
but when all are there they have all been taken, and the engine starts in sessions that
differ in nothing it could see (`Session.Greeted.collect_later`).
-/

namespace JointCircuit

theorem handshake_of_matched {s : Session} {gs : List Greeting}
    (h : ∀ g ∈ gs, g.verdict = some true) : s.handshake gs = .matched := by
  rw [Session.handshake]
  split
  · have hsame : ∀ g ∈ gs, ¬ g.differs = true := fun g hg => by simp [Greeting.differs, h g hg]
    have hanswered : gs.any Greeting.isOpen = false := by
      rw [List.any_eq_false]
      exact fun g hg => by simp [Greeting.isOpen, h g hg]
    rw [eagerHandshake, List.find?_eq_none.mpr hsame]
    simp [hanswered]
  · induction gs with
    | nil => rfl
    | cons g gs ih =>
        rw [List.forall_mem_cons] at h
        rw [patientHandshake, h.1]
        exact ih h.2

namespace Session

/-! ## Deliveries -/

/-- A session is another one into whose mailbox more was put. -/
structure Delivered (more : Nat → Tag → Bytes) (s t : Session) : Prop where
  frame : ∃ mailbox, t = { s with mailbox }
  queue : ∀ peer tag, t.mailbox.queue peer tag = s.mailbox.queue peer tag ++ more peer tag

namespace Delivered

variable {more : Nat → Tag → Bytes} {s t : Session}

theorem refl (s : Session) : Delivered (fun _ _ => []) s s :=
  ⟨⟨s.mailbox, rfl⟩, fun _ _ => (List.append_nil _).symm⟩

theorem later (h : Delivered more s t) : Later more s t := by
  obtain ⟨mailbox, rfl⟩ := h.frame
  exact ⟨⟨mailbox, s.deeds, s.worker, rfl⟩, h.queue, rfl⟩

theorem worker_eq (h : Delivered more s t) : t.worker = s.worker := by
  obtain ⟨mailbox, rfl⟩ := h.frame
  rfl

theorem taken_eq (h : Delivered more s t) (peer : Nat) (tag : Tag) :
    t.taken peer tag = s.taken peer tag := by
  obtain ⟨mailbox, rfl⟩ := h.frame
  rfl

theorem inbox_eq (h : Delivered more s t) (peer : Nat) (tag : Tag) :
    t.inbox peer tag = s.inbox peer tag ++ more peer tag := by
  rw [inbox, h.taken_eq, h.queue, inbox, List.append_assoc]

theorem greeted (h : Delivered more s t) {gs : List Greeting} (hs : s.Greeted gs) :
    t.Greeted gs := by
  obtain ⟨mailbox, rfl⟩ := h.frame
  exact ⟨hs.stage, hs.result, hs.kept, hs.deeds, hs.sent, hs.peers, hs.hears⟩

/-- Greeting does not look into the mailbox. -/
theorem greet : ∀ (peers : List Nat) {s t : Session}, Delivered more s t →
    Delivered more (greet peers s).1 (greet peers t).1 ∧
      (Session.greet peers t).2 = (Session.greet peers s).2
  | [], _, _, h => ⟨h, rfl⟩
  | peer :: peers, s, t, h => by
      obtain ⟨mailbox, rfl⟩ := h.frame
      rw [Session.greet, Session.greet, transmit_eq, transmit_eq]
      cases s.faulty s.attempts with
      | some text => exact ⟨⟨⟨mailbox, rfl⟩, h.queue⟩, rfl⟩
      | none => exact greet peers ⟨⟨mailbox, rfl⟩, h.queue⟩

theorem advance (h : Delivered more s t) (stage : Stage) :
    Delivered more (s.advance stage) (t.advance stage) := by
  obtain ⟨mailbox, rfl⟩ := h.frame
  rw [Session.advance, Session.advance]
  cases s.stage.isFinal with
  | true => exact h
  | false => exact ⟨⟨mailbox, rfl⟩, h.queue⟩

end Delivered

/-! ## Sessions in their handshakes -/

/-- All peers sent the fingerprint before anything else. -/
def Agreed (s : Session) : Prop :=
  ∀ peer ∈ s.peers, s.compiled.fingerprint.bytes <+: s.inbox peer .setup

/-- When more has come, all peers will have sent the fingerprint before anything else. -/
def WillAgree (s : Session) (more : Nat → Tag → Bytes) : Prop :=
  ∀ peer ∈ s.peers, s.compiled.fingerprint.bytes <+: s.inbox peer .setup ++ more peer .setup

/-- A session is another one to which more bytes came, and in whose handshake more may have
been taken or less. -/
structure Ahead (more : Nat → Tag → Bytes) (s t : Session) : Prop where
  frame : ∃ mailbox deeds worker, t = { s with mailbox, deeds, worker }
  inbox : ∀ peer tag, t.inbox peer tag = s.inbox peer tag ++ more peer tag
  taken : ∀ peer tag, (peer ∉ s.peers ∨ tag ≠ .setup) → t.taken peer tag = s.taken peer tag
  deeds : shownAmong t.deeds.toList = shownAmong s.deeds.toList

theorem Delivered.ahead {more : Nat → Tag → Bytes} {s t : Session} (h : Delivered more s t) :
    Ahead more s t :=
  ⟨h.later.frame, h.inbox_eq, fun peer tag _ => h.taken_eq peer tag, h.later.deeds⟩

namespace Ahead

variable {more : Nat → Tag → Bytes} {s t u : Session}

theorem compiled_eq (h : Ahead more s t) : t.compiled = s.compiled := by
  obtain ⟨_, _, _, rfl⟩ := h.frame
  rfl

theorem peers_eq (h : Ahead more s t) : t.peers = s.peers := by
  obtain ⟨_, _, _, rfl⟩ := h.frame
  rfl

theorem engine_eq (h : Ahead more s t) : t.engine = s.engine := by
  obtain ⟨_, _, _, rfl⟩ := h.frame
  rfl

theorem agreed (h : Ahead more s t) (hagree : s.WillAgree more) : t.Agreed := by
  intro peer hpeer
  rw [h.compiled_eq, h.inbox]
  exact hagree peer (h.peers_eq ▸ hpeer)

/-- Two sessions to which the same came may differ in what was taken. -/
theorem alike (h : Ahead more s t) (h' : Ahead more s u) : Ahead (fun _ _ => []) t u := by
  refine ⟨?_, fun peer tag => by rw [h'.inbox, h.inbox, List.append_nil], fun peer tag hother => ?_,
    h'.deeds.trans h.deeds.symm⟩
  · obtain ⟨_, _, _, rfl⟩ := h.frame
    exact h'.frame
  · rw [h.peers_eq] at hother
    rw [h'.taken peer tag hother, h.taken peer tag hother]

/-- More may come after something was taken. -/
theorem deliver {worker : Worker} (h : Ahead (fun _ _ => []) s t)
    (hu : Delivered more { t with worker } u) : Ahead more s u := by
  have hinbox : ∀ peer tag, u.inbox peer tag = t.inbox peer tag ++ more peer tag := hu.inbox_eq
  have htaken : ∀ peer tag, u.taken peer tag = t.taken peer tag := hu.taken_eq
  refine ⟨?_, fun peer tag => ?_, fun peer tag hother => ?_, hu.later.deeds.trans h.deeds⟩
  · obtain ⟨_, deeds, _, rfl⟩ := h.frame
    obtain ⟨mailbox, rfl⟩ := hu.frame
    exact ⟨mailbox, deeds, worker, rfl⟩
  · rw [hinbox, h.inbox, List.append_nil]
  · rw [htaken, h.taken peer tag hother]

end Ahead

namespace Collected

variable {s s' : Session} {gs gs' : List Greeting}

theorem engine_eq (h : Collected s gs s' gs') : s'.engine = s.engine := by
  obtain ⟨_, _, rfl, _⟩ := h.frame
  rfl

/-- What is taken in the handshake is not shown. -/
theorem shown (h : Collected s gs s' gs') :
    shownAmong s'.deeds.toList = shownAmong s.deeds.toList := by
  obtain ⟨mailbox, takes, rfl, htakes⟩ := h.frame
  have hnone : shownAmong takes.toList = [] := by
    refine List.filter_eq_nil_iff.mpr fun d hd => ?_
    obtain ⟨peer, bytes, rfl⟩ := htakes d (Array.mem_toList_iff.mp hd)
    exact Bool.false_ne_true
  rw [Array.toList_append, shownAmong_append, hnone, List.append_nil]

theorem ahead (h : Collected s gs s' gs') (hpeers : gs.map Greeting.peer = s.peers) :
    Ahead (fun _ _ => []) s s' := by
  refine ⟨?_, fun peer tag => (h.inbox peer tag).trans (List.append_nil _).symm,
    fun peer tag hother => h.others peer tag (hpeers ▸ hother), h.shown⟩
  obtain ⟨mailbox, takes, rfl, _⟩ := h.frame
  exact ⟨mailbox, _, s.worker, rfl⟩

end Collected

/-! ## A handshake whose fingerprints are all there -/

theorem Greeted.collect_matched {s : Session} {gs : List Greeting} (h : s.Greeted gs)
    (hagreed : s.Agreed) : ∀ g ∈ (collect gs s).1, g.verdict = some true := by
  have hcollected := collect_collected gs s
  have hgreeted := h.collected hcollected
  have hnodup : (gs.map Greeting.peer).Nodup := h.peers ▸ s.nodup_peers
  have hfront : ∀ g ∈ (collect gs s).1, (collect gs s).2.compiled.fingerprint.bytes <+:
      (collect gs s).2.inbox g.peer .setup := by
    intro g hg
    have hmem : g.peer ∈ s.peers := by
      rw [← h.peers, ← hcollected.peers]
      exact List.mem_map_of_mem hg
    rw [hcollected.compiled, hcollected.inbox]
    exact hagreed g.peer hmem
  -- an eager session does not stop early, as no fingerprint differs
  have hleft := (collect_left s hnodup).resolve_left fun ⟨_, g, hg, hdiffers⟩ =>
    Fingerprint.not_rejects_of_front (hfront g hg)
      ((hgreeted.hears g hg).rejected (beq_iff_eq.mp hdiffers))
  intro g hg
  exact (hgreeted.verdict_eq_true hleft hg).mpr (hfront g hg)

theorem Greeted.runHandshake_eq {s : Session} {gs : List Greeting} (h : s.Greeted gs)
    (hagreed : s.Agreed) : s.runHandshake gs = (collect gs s).2.startEngine := by
  rw [Session.runHandshake]
  simp only
  rw [handshake_of_matched (h.collect_matched hagreed)]

/-- A run that goes through starts the engine when all peers have sent the fingerprint. -/
theorem Standing.run_agreed {s : Session} (h : s.Standing) (hgreets : s.Greets)
    (hagreed : s.Agreed) :
    ∃ t, s.Keeps t ∧ t.engine = s.engine ∧ t.result = none ∧ s.run = t.startEngine := by
  obtain ⟨t, gs, hgreeted, hkeeps, hengine, _, hrun⟩ := h.run_eq hgreets
  have hcollected := collect_collected gs t
  have hagreed' : t.Agreed := by
    intro peer hpeer
    rw [hkeeps.compiled, hkeeps.inbox]
    exact hagreed peer (peers_congr hkeeps.compiled hkeeps.party ▸ hpeer)
  exact ⟨(collect gs t).2, hkeeps.trans hcollected.keeps, hcollected.engine_eq.trans hengine,
    (hgreeted.collected hcollected).result, hrun.trans (hgreeted.runHandshake_eq hagreed')⟩

/-- A session with one peer starts its engine when the fingerprint is the first message of
the peer. -/
theorem Standing.run_greeted {s : Session} (h : s.Standing) (hgreets : s.Greets)
    (hdropped : s.dropped = false) {q : Nat} {name : String} (hpeers : s.peers = [q])
    (hpeer : s.peerNamed? name = some q) (hempty : s.inbox q .setup = []) :
    ∃ t : Session, t.compiled = s.compiled ∧ t.party = s.party ∧ t.engine = s.engine ∧
      t.result = none ∧
      (s.step (.message name (frame .setup s.compiled.fingerprint.bytes))).2.run =
        t.startEngine := by
  generalize hm : frame .setup s.compiled.fingerprint.bytes = m
  have hstep : (s.step (.message name m)).2 =
      { s with mailbox := s.mailbox.push q .setup s.compiled.fingerprint.bytes } := by
    subst hm
    simp only [Session.step, hdropped, handleMessage, accept, hpeer]
    rfl
  have hinbox : (s.step (.message name m)).2.inbox q .setup = s.compiled.fingerprint.bytes := by
    subst hm
    rw [h.inbox_step, hempty, List.nil_append]
    exact if_pos ⟨hdropped, hpeer, rfl⟩
  have hstanding := h.step (.message name m)
  rw [hstep] at hinbox hstanding ⊢
  have hagreed : Agreed
      { s with mailbox := s.mailbox.push q .setup s.compiled.fingerprint.bytes } := by
    intro peer hp
    obtain rfl := List.mem_singleton.mp (hpeers ▸ hp)
    exact hinbox.symm ▸ List.prefix_rfl
  obtain ⟨t, hkeeps, hengine, hresult, hrun⟩ := hstanding.run_agreed hgreets hagreed
  exact ⟨t, hkeeps.compiled, hkeeps.party, hengine, hresult, hrun⟩

/-- After the handshake exactly the fingerprints of the peers were taken in it. -/
theorem Greeted.taken_collect {s : Session} {gs : List Greeting} (h : s.Greeted gs)
    (hagreed : s.Agreed) {peer : Nat} (hpeer : peer ∈ s.peers) :
    (collect gs s).2.taken peer .setup = s.compiled.fingerprint.bytes := by
  have hcollected := collect_collected gs s
  rw [← h.peers, ← hcollected.peers] at hpeer
  obtain ⟨g, hg, rfl⟩ := List.mem_map.mp hpeer
  have hhears := (h.collected hcollected).hears g hg
  rw [Hears, h.collect_matched hagreed g hg] at hhears
  rw [← hcollected.compiled]
  exact beq_iff_eq.mp hhears.2

/-- A handshake whose fingerprints are all there leads to the same, whatever of them was
taken before. -/
theorem Greeted.collect_later {more : Nat → Tag → Bytes} {s t : Session} {gs gs' : List Greeting}
    (hs : s.Greeted gs) (ht : t.Greeted gs') (hsagreed : s.Agreed) (htagreed : t.Agreed)
    (h : Ahead more s t) : Later more (collect gs s).2 (collect gs' t).2 := by
  have hcollected := collect_collected gs s
  have hcollected' := collect_collected gs' t
  -- both have taken the same of everything
  have hsame : ∀ peer tag, (collect gs' t).2.taken peer tag = (collect gs s).2.taken peer tag := by
    intro peer tag
    by_cases hgreeted : peer ∈ s.peers ∧ tag = .setup
    · obtain ⟨hpeer, rfl⟩ := hgreeted
      rw [hs.taken_collect hsagreed hpeer, ht.taken_collect htagreed (h.peers_eq ▸ hpeer),
        h.compiled_eq]
    · have hother : peer ∉ s.peers ∨ tag ≠ .setup := not_and_or.mp hgreeted
      rw [hcollected.others peer tag (hs.peers ▸ hother),
        hcollected'.others peer tag (ht.peers ▸ h.peers_eq ▸ hother), h.taken peer tag hother]
  refine ⟨?_, fun peer tag => ?_, ?_⟩
  · obtain ⟨mailbox, takes, heq, _⟩ := hcollected.frame
    obtain ⟨mailbox', takes', heq', _⟩ := hcollected'.frame
    obtain ⟨_, deeds, worker, rfl⟩ := h.frame
    rw [heq, heq']
    exact ⟨mailbox', _, worker, rfl⟩
  · have hall : (collect gs' t).2.inbox peer tag =
        (collect gs s).2.inbox peer tag ++ more peer tag := by
      rw [hcollected.inbox, hcollected'.inbox, h.inbox]
    rw [inbox, inbox, hsame, List.append_assoc] at hall
    exact List.append_cancel_left hall
  · rw [hcollected.shown, hcollected'.shown, h.deeds]

/-- When the engine starts, more may have come. -/
theorem Later.started {more : Nat → Tag → Bytes} {s t : Session} (h : Later more s t) :
    Later more (((s.advance .handshakeVerified).advance .computing).record .started)
      (((t.advance .handshakeVerified).advance .computing).record .started) :=
  ((h.advance _).advance _).record _

theorem Later.startEngine {more : Nat → Tag → Bytes} {s t : Session} (h : Later more s t)
    (he : s.engine.Sequential) {u : Session} (hu : Later more s.startEngine u)
    (hworker : u.worker = s.startEngine.worker) : u.run.Alike t.startEngine := by
  rw [Session.startEngine, h.engine_eq]
  exact Later.drive he h.started hu hworker

theorem Alike.startEngine {s t : Session} (h : s.Alike t) (he : s.engine.Sequential) :
    s.startEngine.Alike t.startEngine := by
  rw [Session.startEngine, Session.startEngine, h.engine_eq]
  exact Alike.drive he h.started

/-! ## Running before the rest comes -/

/-- A handshake that waits for the rest goes on to the same start of the engine. -/
theorem Greeted.greeting_delivered {more : Nat → Tag → Bytes} {s s' t u : Session}
    {gs gs' : List Greeting} (hs : s.Greeted gs) (he : s.engine.Sequential)
    (hagree : s.WillAgree more) (hcollected : Collected s gs s' gs') (ht : Delivered more s t)
    (hu : Delivered more { s' with worker := .greeting gs' } u) :
    u.run.Alike (t.runHandshake gs) := by
  have hgreeted := hs.collected hcollected
  have hugreeted : u.Greeted gs' :=
    hu.greeted ⟨hgreeted.stage, hgreeted.result, hgreeted.kept, hgreeted.deeds, hgreeted.sent,
      hgreeted.peers, hgreeted.hears⟩
  have htgreeted := ht.greeted hs
  have hahead : Ahead more s u := (hcollected.ahead hs.peers).deliver hu
  have huagreed := hahead.agreed hagree
  have htagreed := ht.ahead.agreed hagree
  have hrun : u.run = u.runHandshake gs' := by rw [Session.run, hu.worker_eq]
  have hengine : (collect gs' u).2.engine.Sequential := by
    rw [(collect_collected gs' u).engine_eq, hahead.engine_eq]
    exact he
  rw [hrun, hugreeted.runHandshake_eq huagreed, htgreeted.runHandshake_eq htagreed]
  exact Alike.startEngine
    (hugreeted.collect_later htgreeted huagreed htagreed (hahead.alike ht.ahead)) hengine

/-- Going on with a handshake before the rest comes makes no difference. -/
theorem Greeted.runHandshake_delivered {more : Nat → Tag → Bytes} {s t u : Session}
    {gs : List Greeting} (hs : s.Greeted gs) (he : s.engine.Sequential)
    (hagree : s.WillAgree more) (ht : Delivered more s t)
    (hu : Delivered more (s.runHandshake gs) u) : u.run.Alike (t.runHandshake gs) := by
  have hcollected := collect_collected gs s
  have hgreeted := hs.collected hcollected
  have hmem : ∀ g ∈ (collect gs s).1, g.peer ∈ s.peers := by
    intro g hg
    rw [← hs.peers, ← hcollected.peers]
    exact List.mem_map_of_mem hg
  cases hstand : (collect gs s).2.handshake (collect gs s).1 with
  | matched =>
      have hsagreed : s.Agreed := by
        intro peer hpeer
        rw [← hs.peers, ← hcollected.peers] at hpeer
        obtain ⟨g, hg, rfl⟩ := List.mem_map.mp hpeer
        rw [← hcollected.compiled, ← hcollected.inbox]
        exact (hgreeted.hears g hg).agreed (handshake_matched hstand g hg)
      have htagreed := ht.ahead.agreed hagree
      have hlater : Later more (collect gs s).2 (collect gs t).2 :=
        hs.collect_later (ht.greeted hs) hsagreed htagreed ht.ahead
      rw [hs.runHandshake_eq hsagreed] at hu
      rw [(ht.greeted hs).runHandshake_eq htagreed]
      exact hlater.startEngine (hcollected.engine_eq ▸ he) hu.later hu.worker_eq
  | unfinished =>
      rw [Session.runHandshake] at hu
      simp only [hstand] at hu
      exact hs.greeting_delivered he hagree hcollected ht hu
  | mismatch peer =>
      -- the fingerprint that differs would be at the front of what comes in all
      obtain ⟨g, hg, rfl, hverdict⟩ := handshake_mismatch hstand
      have hrejects := (hgreeted.hears g hg).rejected hverdict
      rw [hcollected.compiled, hcollected.inbox] at hrejects
      exact absurd (hrejects.mono (List.prefix_append _ _))
        (Fingerprint.not_rejects_of_front (hagree g.peer (hmem g hg)))

/-- The engine of a session waits for one receive at a time, now and later. -/
def OneByOne (s : Session) : Prop :=
  match s.worker with
  | .fresh => s.engine.Sequential
  | .greeting _ => s.engine.Sequential
  | .waiting ws next => (∃ r, ws = [.pending r]) ∧ ∀ answers, (next answers).Sequential
  | .ended => True

theorem conclude_oneByOne (s : Session) (result : Except SessionError Results) :
    (s.conclude result).OneByOne := by
  rw [conclude_eq]
  trivial

theorem drive_oneByOne {e : Engine} (he : e.Sequential) : ∀ s : Session, (drive e s).OneByOne := by
  induction he with
  | send _ ih =>
      intro s
      rw [drive]
      split
      · split
        · exact ih none _
        · rw [finish_eq]
          exact conclude_oneByOne _ _
      · exact ih _ _
  | @receive requests next one hnext ih =>
      intro s
      cases requests with
      | nil => exact ih [] s
      | cons r rest =>
          obtain rfl : rest = [] := by simpa using one
          by_cases hpeer : s.isPeer r.peer = true
          · cases htake : s.take? r.peer (.engine r.channel) r.count with
            | none =>
                rw [drive_receive_none hpeer htake]
                exact ⟨⟨r, rfl⟩, hnext⟩
            | some taken =>
                rw [drive_receive_some hpeer htake]
                exact ih _ _
          · rw [drive_receive_stray hpeer]
            exact ih _ _
  | note _ ih => exact fun s => ih _
  | keep _ ih => exact fun s => ih _
  | finish result =>
      intro s
      rw [drive, finish_eq]
      exact s.conclude_oneByOne _

theorem runHandshake_oneByOne (gs : List Greeting) {s : Session} (he : s.engine.Sequential) :
    (s.runHandshake gs).OneByOne := by
  have hengine := (collect_collected gs s).engine_eq
  rw [runHandshake]
  simp only
  split
  · exact drive_oneByOne (hengine ▸ he) _
  · exact hengine ▸ he
  · exact conclude_oneByOne _ _

/-- The run of a session that did nothing yet goes on with the handshake, unless an attempt
to greet breaks down. -/
theorem run_fresh {s : Session} (hworker : s.worker = .fresh) :
    s.run = if (greet s.peers s).2
      then ((greet s.peers s).1.advance .handshakeSent).runHandshake
        ((greet s.peers s).1.peers.map fun peer => ⟨peer, none⟩)
      else (greet s.peers s).1.conclude (.error .stopped) := by
  rw [Session.run, hworker]
  simp only
  split <;> rename_i heq <;> rw [heq] <;> rfl

theorem greeted_engine (s : Session) :
    ((greet s.peers s).1.advance .handshakeSent).engine = s.engine := by
  obtain ⟨_, _, _, heq, _⟩ := greet_eq s.peers s
  rw [heq, Session.advance]
  split <;> rfl

/-- When all peers were greeted, the handshake waits for all of them. -/
theorem Standing.greeted_of_greet {s : Session} (h : s.Standing) (hworker : s.worker = .fresh)
    (hthrough : (greet s.peers s).2 = true) :
    ((greet s.peers s).1.advance .handshakeSent).Greeted
      ((greet s.peers s).1.peers.map fun peer => ⟨peer, none⟩) := by
  obtain ⟨done, attempts, _, heq, hall⟩ := greet_eq s.peers s
  obtain rfl := hall hthrough
  rw [heq]
  cases h with
  | fresh _ stage result kept _ deeds => exact greeted_all stage result kept deeds attempts
  | greeted worker => cases hworker.symm.trans worker
  | barred h => cases hworker.symm.trans h.worker
  | engaged h rest =>
      rcases rest with ⟨_, _, hrest⟩ | hrest <;> cases hworker.symm.trans hrest

theorem WillAgree.congr {s t : Session} {more : Nat → Tag → Bytes} (h : s.WillAgree more)
    (hkeeps : s.Keeps t) : t.WillAgree more := by
  intro peer hpeer
  rw [peers_congr hkeeps.compiled hkeeps.party] at hpeer
  rw [hkeeps.compiled, hkeeps.inbox]
  exact h peer hpeer

theorem Standing.oneByOne {s : Session} (h : s.Standing) (hone : s.OneByOne) :
    s.run.OneByOne := by
  cases hworker : s.worker with
  | fresh =>
      rw [OneByOne, hworker] at hone
      rw [run_fresh hworker]
      split
      · exact runHandshake_oneByOne _ (s.greeted_engine ▸ hone)
      · exact conclude_oneByOne _ _
  | greeting gs =>
      rw [OneByOne, hworker] at hone
      rw [Session.run, hworker]
      exact runHandshake_oneByOne gs hone
  | waiting ws next =>
      rw [OneByOne, hworker] at hone
      obtain ⟨⟨r, rfl⟩, hnext⟩ := hone
      have hseq : (Engine.receive [r] next).Sequential := .receive (Nat.le_refl 1) hnext
      rw [run_eq_drive hworker (h.valid hworker r List.mem_cons_self)]
      exact drive_oneByOne hseq s
  | ended => rwa [run_ended hworker]

/-- A run before more is delivered can be left out when the session runs afterwards. -/
theorem Standing.run_delivered {more : Nat → Tag → Bytes} {s t u : Session} (h : s.Standing)
    (hone : s.OneByOne) (hagree : s.WillAgree more) (ht : Delivered more s t)
    (hu : Delivered more s.run u) : u.run.Alike t.run := by
  cases hworker : s.worker with
  | fresh =>
      rw [OneByOne, hworker] at hone
      have hpeers : t.peers = s.peers := by
        obtain ⟨_, rfl⟩ := ht.frame
        rfl
      obtain ⟨hgreet, hthrough⟩ := ht.greet s.peers
      rw [run_fresh hworker] at hu
      rw [run_fresh (ht.worker_eq.trans hworker), hpeers, hthrough]
      split at hu
      · rename_i hsent
        have hkeeps := s.greet_keeps.trans (advance_keeps _ .handshakeSent)
        have hpeers' : (greet s.peers t).1.peers = (greet s.peers s).1.peers := by
          obtain ⟨_, heq⟩ := hgreet.frame
          rw [heq]
          rfl
        rw [if_pos hsent, hpeers']
        exact (h.greeted_of_greet hworker hsent).runHandshake_delivered (s.greeted_engine ▸ hone)
          (hagree.congr hkeeps) (hgreet.advance _) hu
      · rename_i hsent
        have hended : u.worker = .ended := hu.worker_eq
        rw [if_neg hsent, run_ended hended]
        exact hu.later.alike (hgreet.later.conclude _)
  | greeting gs =>
      rw [OneByOne, hworker] at hone
      have hrun : s.run = s.runHandshake gs := by rw [Session.run, hworker]
      have hrun' : t.run = t.runHandshake gs := by rw [Session.run, ht.worker_eq, hworker]
      rw [hrun] at hu
      rw [hrun']
      exact (h.greeted_of_worker hworker).runHandshake_delivered hone hagree ht hu
  | waiting ws next =>
      rw [OneByOne, hworker] at hone
      obtain ⟨⟨r, rfl⟩, hnext⟩ := hone
      have hpeer := h.valid hworker r List.mem_cons_self
      rw [run_eq_drive hworker hpeer] at hu
      rw [run_eq_drive (ht.worker_eq.trans hworker) (ht.later.isPeer_eq r.peer ▸ hpeer)]
      have hseq : (Engine.receive [r] next).Sequential := .receive (Nat.le_refl 1) hnext
      exact Later.drive hseq ht.later hu.later hu.worker_eq
  | ended =>
      rw [run_ended hworker] at hu
      rw [run_ended (hu.worker_eq.trans hworker), run_ended (ht.worker_eq.trans hworker)]
      exact hu.later.alike ht.later

end Session

end JointCircuit

import JointCircuit.Proofs.Session.History

/-!
# Engines that end differently

Two engines that act alike cannot be told apart before they end.  `Engine.mapEnd` is the
engine that acts like another one and ends with the image of its end, and
`Session.mapEnd` is the session with this engine, wherever the session stands.

If a session makes the same of every end and of its image (`Session.Blind`), then
nothing that happens to it shows which of the two engines it has: after every history
the two sessions still differ only in what their engines would end with
(`Session.steps_mapEnd`).  In particular they have the same result.
-/

namespace JointCircuit

/-- The engine that acts alike and ends with the image of the end. -/
def Engine.mapEnd (f : EngineResult → EngineResult) : Engine → Engine
  | .send peer channel bytes next =>
      .send peer channel bytes fun answer => (next answer).mapEnd f
  | .receive requests next => .receive requests fun answers => (next answers).mapEnd f
  | .note entry next => .note entry (next.mapEnd f)
  | .keep next => .keep (next.mapEnd f)
  | .finish result => .finish (f result)

/-- The program of the engines that end with the images of the ends. -/
def EngineProgram.mapEnd (f : EngineResult → EngineResult) (program : EngineProgram) :
    EngineProgram :=
  { program with acts := fun c => (program.acts c).mapEnd f }

/-- The worker of an engine that ends with the image of the end. -/
def Worker.mapEnd (f : EngineResult → EngineResult) : Worker → Worker
  | .fresh => .fresh
  | .greeting gs => .greeting gs
  | .waiting ws next => .waiting ws fun answers => (next answers).mapEnd f
  | .ended => .ended

namespace Session

/-- The session whose engine ends with the image of the end. -/
def mapEnd (f : EngineResult → EngineResult) (s : Session) : Session :=
  { s with engine := s.engine.mapEnd f, worker := s.worker.mapEnd f }

/-- A session makes the same of an end and of its image. -/
def Blind (s : Session) (f : EngineResult → EngineResult) : Prop :=
  ∀ result, s.verdict (f result) = s.verdict result

variable {f : EngineResult → EngineResult} {s s' : Session}

theorem Blind.congr (h : s.Blind f) (hc : s'.compiled = s.compiled) (hp : s'.party = s.party) :
    s'.Blind f := by
  intro result
  rw [verdict_congr hc hp, verdict_congr hc hp]
  exact h result

theorem Blind.keeps (h : s.Blind f) (hkeeps : s.Keeps s') : s'.Blind f :=
  h.congr hkeeps.compiled hkeeps.party

theorem Blind.acts (h : s.Blind f) (hacts : Acts s s') : s'.Blind f :=
  h.congr hacts.frame.1 hacts.frame.2.1

/-! ## Parts of a session -/

theorem advance_mapEnd (s : Session) (stage : Stage) :
    (s.mapEnd f).advance stage = (s.advance stage).mapEnd f := by
  unfold advance
  have hstage : (s.mapEnd f).stage = s.stage := rfl
  rw [hstage]
  split <;> rfl

theorem settle_mapEnd (s : Session) (result : Except SessionError Results) :
    (s.mapEnd f).settle result = (s.settle result).mapEnd f := by
  rw [settle_eq, settle_eq]
  rfl

theorem misaddressed_mapEnd (s : Session) (index : Nat) :
    (s.mapEnd f).misaddressed index = (s.misaddressed index).mapEnd f :=
  settle_mapEnd s _

theorem conclude_mapEnd (s : Session) (result : Except SessionError Results) :
    (s.mapEnd f).conclude result = (s.conclude result).mapEnd f := by
  rw [conclude_eq, conclude_eq]
  rfl

/-- An end that does not come from the engine is the same for both. -/
theorem finish_mapEnd (s : Session) (result : EngineResult) :
    (s.mapEnd f).finish result = (s.finish result).mapEnd f := by
  have hverdict : (s.mapEnd f).verdict result = s.verdict result := verdict_congr rfl rfl result
  rw [finish_eq, finish_eq, hverdict, conclude_mapEnd]

theorem transmit_mapEnd (s : Session) (peer : Nat) (tag : Tag) (payload : Bytes) :
    (s.mapEnd f).transmit peer tag payload =
      ((s.transmit peer tag payload).1.mapEnd f, (s.transmit peer tag payload).2) := by
  rw [transmit_eq, transmit_eq]
  rfl

theorem take?_mapEnd (s : Session) (peer : Nat) (tag : Tag) (count : Nat) :
    (s.mapEnd f).take? peer tag count =
      (s.take? peer tag count).map fun taken => (taken.1, taken.2.mapEnd f) := by
  have hmailbox : (s.mapEnd f).mailbox = s.mailbox := rfl
  unfold take?
  rw [hmailbox]
  cases s.mailbox.take? peer tag count with
  | none => rfl
  | some taken => rfl

theorem openWaits_mapEnd (rs : List Receive) (s : Session) :
    openWaits rs (s.mapEnd f) = ((openWaits rs s).1, (openWaits rs s).2.mapEnd f) := by
  induction rs generalizing s with
  | nil => rfl
  | cons r rs ih =>
      have hpeer : (s.mapEnd f).isPeer r.peer = s.isPeer r.peer := rfl
      rw [openWaits, openWaits, hpeer]
      cases s.isPeer r.peer with
      | true => simp only [if_true, ih]
      | false => simp only [Bool.false_eq_true, if_false, misaddressed_mapEnd, ih]

theorem tryWaits_mapEnd (ws : List Wait) (s : Session) :
    tryWaits ws (s.mapEnd f) = ((tryWaits ws s).1, (tryWaits ws s).2.mapEnd f) := by
  induction ws generalizing s with
  | nil => rfl
  | cons w ws ih =>
      cases w with
      | closed answer => simp only [tryWaits, ih]
      | pending r =>
          rw [tryWaits, tryWaits, take?_mapEnd]
          cases s.take? r.peer (.engine r.channel) r.count with
          | none => simp only [Option.map_none, ih]
          | some taken => simp only [Option.map_some, ih]

theorem greet_mapEnd (peers : List Nat) (s : Session) :
    greet peers (s.mapEnd f) = ((greet peers s).1.mapEnd f, (greet peers s).2) := by
  induction peers generalizing s with
  | nil => rfl
  | cons peer peers ih =>
      have hfingerprint : (s.mapEnd f).compiled = s.compiled := rfl
      rw [greet, greet, transmit_mapEnd, hfingerprint]
      generalize s.transmit peer .setup s.compiled.fingerprint.bytes = sent
      obtain ⟨t, fault⟩ := sent
      cases fault with
      | none => exact ih t
      | some text => rfl

theorem collect_mapEnd (gs : List Greeting) (s : Session) :
    collect gs (s.mapEnd f) = ((collect gs s).1, (collect gs s).2.mapEnd f) := by
  induction gs generalizing s with
  | nil => rfl
  | cons g gs ih =>
      rw [collect, collect, take?_mapEnd]
      cases g.isOpen with
      | false => simp only [Bool.false_eq_true, if_false, ih]
      | true =>
          cases s.take? g.peer .setup fingerprintSize with
          | none => simp only [if_true, Option.map_none, ih]
          | some taken =>
              obtain ⟨bytes, t⟩ := taken
              have hcompiled : (t.mapEnd f).compiled = t.compiled := rfl
              have heager : (t.mapEnd f).isEager = t.isEager := rfl
              simp only [if_true, Option.map_some, hcompiled, heager, ih]
              split <;> rfl

/-! ## Runs -/

/-- Engines that act alike lead to sessions that differ in their ends only. -/
theorem drive_mapEnd (e : Engine) (h : s.Blind f) :
    drive (e.mapEnd f) (s.mapEnd f) = (drive e s).mapEnd f := by
  induction e generalizing s with
  | send peer channel bytes next ih =>
      have hpeer : (s.mapEnd f).isPeer peer = s.isPeer peer := rfl
      rw [Engine.mapEnd, drive, drive, hpeer]
      cases hs : s.isPeer peer with
      | false =>
          simp only [Bool.false_eq_true, if_false, misaddressed_mapEnd]
          exact ih _ (h.acts (.single (.misaddressed s peer)))
      | true =>
          have hblind := h.acts (transmit_acts hs channel bytes)
          simp only [if_true, transmit_mapEnd]
          generalize s.transmit peer (.engine channel) bytes = sent at hblind ⊢
          obtain ⟨t, fault⟩ := sent
          cases fault with
          | none => exact ih none hblind
          | some text => exact finish_mapEnd t _
  | receive requests next ih =>
      obtain ⟨hopen, hvalid⟩ := openWaits_acts requests s
      obtain ⟨htry, _⟩ := tryWaits_acts _ (hopen.valid_iff.mpr hvalid)
      have hblind := h.acts (hopen.trans htry)
      simp only [Engine.mapEnd, drive, openWaits_mapEnd, tryWaits_mapEnd]
      split
      · exact ih _ hblind
      · rfl
  | note entry next ih => exact ih (s := s.record (.noted entry)) (h.congr rfl rfl)
  | keep next ih => exact ih (s := { s with kept := true }) (h.congr rfl rfl)
  | finish result =>
      rw [Engine.mapEnd, drive, drive, finish_mapEnd, finish_eq, finish_eq, h result]

theorem runHandshake_mapEnd (gs : List Greeting) (h : s.Blind f) :
    (s.mapEnd f).runHandshake gs = (s.runHandshake gs).mapEnd f := by
  have hblind := h.keeps (collect_collected gs s).keeps
  rw [runHandshake, runHandshake, collect_mapEnd]
  generalize collect gs s = collected at hblind ⊢
  obtain ⟨gs', t⟩ := collected
  have hhandshake : (t.mapEnd f).handshake gs' = t.handshake gs' := rfl
  simp only [hhandshake]
  split
  · have hadvanced := ((t.advance_keeps .handshakeVerified).trans (advance_keeps _ .computing))
    simp only [startEngine, advance_mapEnd]
    exact drive_mapEnd (s := Session.record _ .started) t.engine
      ((hblind.keeps hadvanced).congr rfl rfl)
  · rfl
  · exact conclude_mapEnd t _

theorem Standing.run_mapEnd (hs : s.Standing) (h : s.Blind f) :
    (s.mapEnd f).run = s.run.mapEnd f := by
  rw [Session.run, Session.run]
  cases hworker : s.worker with
  | fresh =>
      have hfresh : (s.mapEnd f).worker = .fresh := by rw [mapEnd, hworker]; rfl
      have hpeers : (s.mapEnd f).peers = s.peers := rfl
      have hblind := h.keeps s.greet_keeps
      simp only [hfresh, hpeers, greet_mapEnd]
      generalize greet s.peers s = greeted at hblind ⊢
      obtain ⟨t, through⟩ := greeted
      cases through with
      | true =>
          simp only [advance_mapEnd]
          exact runHandshake_mapEnd _ (hblind.keeps (advance_keeps _ _))
      | false => exact conclude_mapEnd t _
  | greeting gs =>
      have hgreeting : (s.mapEnd f).worker = .greeting gs := by rw [mapEnd, hworker]; rfl
      simp only [hgreeting]
      exact runHandshake_mapEnd gs h
  | waiting ws next =>
      have hwaiting : (s.mapEnd f).worker = .waiting ws fun answers => (next answers).mapEnd f := by
        rw [mapEnd, hworker]
        rfl
      have hblind := h.acts (tryWaits_acts ws (hs.valid hworker)).1
      simp only [hwaiting, tryWaits_mapEnd]
      split
      · exact drive_mapEnd _ hblind
      · rfl
  | ended =>
      have hended : (s.mapEnd f).worker = .ended := by rw [mapEnd, hworker]; rfl
      simp only [hended]

/-! ## Histories -/

theorem accept_mapEnd (s : Session) (name : String) (bytes : Bytes) :
    (s.mapEnd f).accept name bytes = (s.accept name bytes).map (mapEnd f) := by
  have hpeer : (s.mapEnd f).peerNamed? name = s.peerNamed? name := rfl
  unfold accept
  rw [hpeer]
  cases s.peerNamed? name with
  | none => rfl
  | some peer =>
      cases bytes with
      | nil => rfl
      | cons b payload =>
          cases hb : Tag.ofByte? b with
          | none => simp only [hb]; rfl
          | some tag => simp only [hb]; rfl

theorem handleMessage_mapEnd (s : Session) (name : String) (bytes : Bytes) :
    ((s.mapEnd f).handleMessage name bytes).2 = (s.handleMessage name bytes).2.mapEnd f := by
  rw [handleMessage, handleMessage, accept_mapEnd]
  cases s.accept name bytes with
  | error e => exact conclude_mapEnd s _
  | ok t => rfl

theorem keptSend_mapEnd (s : Session) (peer : Nat) (channel : Channel) (bytes : Bytes) :
    ((s.mapEnd f).keptSend peer channel bytes).2 = (s.keptSend peer channel bytes).2.mapEnd f := by
  have hpeer : (s.mapEnd f).isPeer peer = s.isPeer peer := rfl
  rw [keptSend, keptSend, hpeer, transmit_mapEnd]
  cases s.isPeer peer with
  | false => exact misaddressed_mapEnd s peer
  | true =>
      generalize s.transmit peer (.engine channel) bytes = sent
      obtain ⟨t, fault⟩ := sent
      cases fault with
      | none => rfl
      | some text => rfl

theorem keptReceive_mapEnd (s : Session) (r : Receive) :
    ((s.mapEnd f).keptReceive r).2 = (s.keptReceive r).2.mapEnd f := by
  have hpeer : (s.mapEnd f).isPeer r.peer = s.isPeer r.peer := rfl
  rw [keptReceive, keptReceive, hpeer, take?_mapEnd]
  cases s.isPeer r.peer with
  | false => exact misaddressed_mapEnd s r.peer
  | true =>
      cases s.take? r.peer (.engine r.channel) r.count with
      | none => rfl
      | some taken => rfl

/-- An event leads to sessions that differ in their ends only. -/
theorem Standing.step_mapEnd (hs : s.Standing) (h : s.Blind f) (e : Event) :
    ((s.mapEnd f).step e).2 = (s.step e).2.mapEnd f := by
  have hdropped : (s.mapEnd f).dropped = s.dropped := rfl
  have hkept : (s.mapEnd f).kept = s.kept := rfl
  cases e with
  | run => exact hs.run_mapEnd h
  | message name bytes =>
      simp only [Session.step, hdropped]
      split
      · rfl
      · exact handleMessage_mapEnd s name bytes
  | drop =>
      simp only [Session.step, hdropped]
      split
      · rfl
      · simp only [Session.drop, conclude_mapEnd]
        rfl
  | keptSend peer channel bytes =>
      simp only [Session.step, hkept]
      split
      · exact keptSend_mapEnd s peer channel bytes
      · rfl
  | keptReceive request =>
      simp only [Session.step, hkept]
      split
      · exact keptReceive_mapEnd s request
      · rfl

/-- After every history the two sessions differ in their ends only. -/
theorem Standing.steps_mapEnd (hs : s.Standing) (h : s.Blind f) (es : List Event) :
    (s.mapEnd f).steps es = (s.steps es).mapEnd f := by
  induction es generalizing s with
  | nil => rfl
  | cons e es ih =>
      obtain ⟨hc, hp, _⟩ := hs.step_frame e
      rw [Session.steps, Session.steps, hs.step_mapEnd h]
      exact ih (hs.step e) (h.congr hc hp)

/-- A program whose engines end with the images of the ends is started alike. -/
theorem start_mapEnd (c : Compiled) (name : String) (values : Values) (program : EngineProgram)
    (faulty : Nat → Option String) :
    start c name values (program.mapEnd f) faulty =
      (start c name values program faulty).map (mapEnd f) := by
  dsimp only [start, EngineProgram.mapEnd]
  by_cases hcount : c.parties.length < program.least ∨ program.most < c.parties.length
  · rw [if_pos hcount, if_pos hcount]
    rfl
  · rw [if_neg hcount, if_neg hcount]
    cases c.partyIndex? name with
    | none => rfl
    | some party =>
        cases c.encodeInput name values with
        | error e => rfl
        | ok inputs => rfl

end Session

end JointCircuit

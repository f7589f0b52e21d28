import JointCircuit.Proofs.Session.Agreement

/-!
# Completed receives

A receive completes when it is answered with bytes: a fingerprint that is compared, a
wait of the engine that closes, or an answer to the access that an engine kept.
`Session.receipts` lists the completed receives of a history in order, read off these
answers and not off the mailbox.  A receive that still waits, or whose worker ended
before it was answered, is not among them.

What a session takes out of its mailbox is what these receives return
(`Session.steps_completes`).  With the inboxes this gives the conservation law
`Session.received_eq_returned`: what came from a peer under a tag is what its receives
returned, followed by what is still queued.
-/

namespace JointCircuit

/-- A completed receive. -/
structure Receipt where
  peer : Nat
  tag : Tag
  /-- The number of bytes asked for. -/
  count : Nat
  /-- The bytes returned. -/
  bytes : Bytes
deriving DecidableEq, Repr

/-- The bytes returned to the receives of a peer and tag, one after the other. -/
def returned (rs : List Receipt) (peer : Nat) (tag : Tag) : Bytes :=
  (rs.filter fun r => r.peer = peer ∧ r.tag = tag).flatMap Receipt.bytes

/-- The receives that waited and are answered with bytes now. -/
def Wait.completed : List Wait → List Wait → List Receipt
  | .pending r :: before, .closed (.ok bytes) :: after =>
      ⟨r.peer, .engine r.channel, r.count, bytes⟩ :: completed before after
  | _ :: before, _ :: after => completed before after
  | _, _ => []

/-- What was taken, among deeds. -/
def takesAmong (ds : List Deed) : List (Nat × Tag × Bytes) :=
  ds.filterMap fun
    | .took peer tag bytes => some (peer, tag, bytes)
    | _ => none

namespace Session

/-! ## The receipts of a history -/

/-- The receives that complete when fingerprints are collected. -/
def collectReceipts : List Greeting → Session → List Receipt
  | [], _ => []
  | g :: gs, s =>
      if g.isOpen then
        match s.take? g.peer .setup fingerprintSize with
        | none => collectReceipts gs s
        | some (bytes, s) =>
            let judged := { g with verdict := some (s.compiled.fingerprint.accepts bytes) }
            ⟨g.peer, .setup, fingerprintSize, bytes⟩ ::
              if s.isEager && judged.differs then [] else collectReceipts gs s
      else collectReceipts gs s

/-- The receives that complete while an engine runs. -/
def driveReceipts : Engine → Session → List Receipt
  | .send peer channel bytes next, s =>
      if s.isPeer peer then
        match s.transmit peer (.engine channel) bytes with
        | (s, none) => driveReceipts (next none) s
        | (_, some _) => []
      else driveReceipts (next (some (.invalidParty peer))) (s.misaddressed peer)
  | .receive requests next, s =>
      let (before, s) := openWaits requests s
      let (after, s) := tryWaits before s
      Wait.completed before after ++
        match Wait.answers? after with
        | some answers => driveReceipts (next answers) s
        | none => []
  | .note entry next, s => driveReceipts next (s.record (.noted entry))
  | .keep next, s => driveReceipts next { s with kept := true }
  | .finish _, _ => []

/-- The receives that complete when a handshake goes on. -/
def handshakeReceipts (gs : List Greeting) (s : Session) : List Receipt :=
  let (after, t) := collect gs s
  collectReceipts gs s ++
    match t.handshake after with
    | .matched =>
        driveReceipts t.engine
          (((t.advance .handshakeVerified).advance .computing).record .started)
    | _ => []

/-- The receives that complete in a run of the worker. -/
def runReceipts (s : Session) : List Receipt :=
  match s.worker with
  | .fresh =>
      match greet s.peers s with
      | (s, true) =>
          handshakeReceipts (s.peers.map fun peer => ⟨peer, none⟩) (s.advance .handshakeSent)
      | (_, false) => []
  | .greeting gs => handshakeReceipts gs s
  | .waiting before next =>
      let (after, s) := tryWaits before s
      Wait.completed before after ++
        match Wait.answers? after with
        | some answers => driveReceipts (next answers) s
        | none => []
  | .ended => []

/-- The receives that complete on an event. -/
def stepReceipts (s : Session) : Event → List Receipt
  | .run => s.runReceipts
  | .keptReceive r =>
      match (s.step (.keptReceive r)).1 with
      | .bytes bytes => [⟨r.peer, .engine r.channel, r.count, bytes⟩]
      | _ => []
  | _ => []

/-- The receives that complete along a row of events, in order. -/
def receipts : Session → List Event → List Receipt
  | _, [] => []
  | s, e :: es => s.stepReceipts e ++ receipts (s.step e).2 es

/-! ## What is taken is returned -/

/-- A session changes to another one, and what it takes meanwhile is what receives return,
each of them as much as it asked for. -/
structure Completes (s s' : Session) (rs : List Receipt) : Prop where
  takes : takesAmong s'.deeds.toList =
    takesAmong s.deeds.toList ++ rs.map fun r => (r.peer, r.tag, r.bytes)
  counts : ∀ r ∈ rs, r.bytes.length = r.count

theorem takesAmong_append (ds es : List Deed) :
    takesAmong (ds ++ es) = takesAmong ds ++ takesAmong es :=
  List.filterMap_append

/-- What was taken of one peer and tag is a part of what was taken. -/
theorem takenAmong_eq_flatMap (ds : List Deed) (peer : Nat) (tag : Tag) :
    takenAmong ds peer tag =
      (takesAmong ds).flatMap fun (p, t, bytes) => if p = peer ∧ t = tag then bytes else [] := by
  induction ds with
  | nil => rfl
  | cons d ds ih =>
      rw [← List.singleton_append, takenAmong_append, takesAmong_append, List.flatMap_append, ih]
      cases d <;> simp [takenAmong, takesAmong]

theorem returned_eq_flatMap (rs : List Receipt) (peer : Nat) (tag : Tag) :
    returned rs peer tag =
      (rs.map fun r => (r.peer, r.tag, r.bytes)).flatMap
        fun (p, t, bytes) => if p = peer ∧ t = tag then bytes else [] := by
  induction rs with
  | nil => rfl
  | cons r rs ih =>
      rw [List.map_cons, List.flatMap_cons, ← ih, returned, List.filter_cons]
      by_cases h : r.peer = peer ∧ r.tag = tag <;> simp [h, returned]

namespace Completes

variable {s s' s'' : Session} {rs rs' : List Receipt}

theorem of_deeds (h : takesAmong s'.deeds.toList = takesAmong s.deeds.toList) :
    s.Completes s' [] where
  takes := h.trans (List.append_nil _).symm
  counts := nofun

theorem refl (s : Session) : s.Completes s [] := of_deeds rfl

theorem trans (h : s.Completes s' rs) (h' : s'.Completes s'' rs') :
    s.Completes s'' (rs ++ rs') where
  takes := by rw [h'.takes, h.takes, List.map_append, List.append_assoc]
  counts := List.forall_mem_append.mpr ⟨h.counts, h'.counts⟩

/-- Nothing is taken at first. -/
theorem after (h : takesAmong s'.deeds.toList = takesAmong s.deeds.toList)
    (h' : s'.Completes s'' rs) : s.Completes s'' rs :=
  (of_deeds h).trans h'

/-- A receive takes its bytes. -/
theorem take {peer count : Nat} {tag : Tag} {bytes : Bytes}
    (h : s.take? peer tag count = some (bytes, s')) :
    s.Completes s' [⟨peer, tag, count, bytes⟩] := by
  obtain ⟨mailbox, hmailbox, rfl⟩ := take?_eq_some.mp h
  refine ⟨?_, fun r hr => ?_⟩
  · rw [Array.toList_push, takesAmong_append]
    rfl
  · obtain rfl := List.mem_singleton.mp hr
    exact (Mailbox.queue_take hmailbox).1

theorem taken_eq (h : s.Completes s' rs) (peer : Nat) (tag : Tag) :
    s'.taken peer tag = s.taken peer tag ++ returned rs peer tag := by
  rw [taken, takenAmong_eq_flatMap, h.takes, List.flatMap_append, ← takenAmong_eq_flatMap,
    ← returned_eq_flatMap, taken]

end Completes

theorem takesAmong_record (s : Session) {d : Deed} (h : takesAmong [d] = []) :
    takesAmong (s.record d).deeds.toList = takesAmong s.deeds.toList := by
  rw [record, Array.toList_push, takesAmong_append, h, List.append_nil]

theorem transmit_completes (s : Session) (peer : Nat) (tag : Tag) (payload : Bytes) :
    s.Completes (s.transmit peer tag payload).1 [] := by
  rw [transmit]
  simp only
  split
  · exact .of_deeds rfl
  · exact .of_deeds (takesAmong_record _ rfl)

theorem conclude_completes (s : Session) (result : Except SessionError Results) :
    s.Completes (s.conclude result) [] := by
  rw [conclude_eq]
  exact .of_deeds rfl

theorem finish_completes (s : Session) (result : EngineResult) :
    s.Completes (s.finish result) [] := by
  rw [finish_eq]
  exact s.conclude_completes _

theorem misaddressed_completes (s : Session) (index : Nat) :
    s.Completes (s.misaddressed index) [] := by
  rw [misaddressed, settle_eq]
  exact .of_deeds rfl

theorem advance_completes (s : Session) (stage : Stage) : s.Completes (s.advance stage) [] := by
  rw [advance]
  split <;> exact .of_deeds rfl

theorem greet_completes :
    ∀ (peers : List Nat) (s : Session), s.Completes (greet peers s).1 []
  | [], s => .refl s
  | peer :: peers, s => by
      have hsend := s.transmit_completes peer .setup s.compiled.fingerprint.bytes
      rw [greet]
      split <;> rename_i heq <;> rw [heq] at hsend
      · exact hsend.trans (greet_completes peers _)
      · exact hsend

theorem collect_completes :
    ∀ (gs : List Greeting) (s : Session), s.Completes (collect gs s).2 (collectReceipts gs s)
  | [], s => .refl s
  | g :: gs, s => by
      rw [collect, collectReceipts]
      split
      · cases htake : s.take? g.peer .setup fingerprintSize with
        | none => exact collect_completes gs s
        | some taken =>
            obtain ⟨bytes, t⟩ := taken
            simp only
            split
            · exact .take htake
            · exact (Completes.take htake).trans (collect_completes gs t)
      · exact collect_completes gs s

theorem openWaits_completes :
    ∀ (rs : List Receive) (s : Session), s.Completes (openWaits rs s).2 []
  | [], s => .refl s
  | r :: rs, s => by
      rw [openWaits]
      split
      · exact openWaits_completes rs s
      · exact (s.misaddressed_completes r.peer).trans (openWaits_completes rs _)

theorem tryWaits_completes :
    ∀ (ws : List Wait) (s : Session),
      s.Completes (tryWaits ws s).2 (Wait.completed ws (tryWaits ws s).1)
  | [], s => .refl s
  | .closed answer :: ws, s => tryWaits_completes ws s
  | .pending r :: ws, s => by
      rw [tryWaits]
      cases htake : s.take? r.peer (.engine r.channel) r.count with
      | none => exact tryWaits_completes ws s
      | some taken =>
          obtain ⟨bytes, t⟩ := taken
          exact (Completes.take htake).trans (tryWaits_completes ws t)

theorem drive_completes :
    ∀ (e : Engine) (s : Session), s.Completes (drive e s) (driveReceipts e s) := by
  intro e
  induction e with
  | send peer channel bytes next ih =>
      intro s
      rw [drive, driveReceipts]
      split
      · have hsend := s.transmit_completes peer (.engine channel) bytes
        generalize s.transmit peer (.engine channel) bytes = sent at hsend ⊢
        obtain ⟨t, fault⟩ := sent
        cases fault with
        | none => exact hsend.trans (ih none t)
        | some text => exact hsend.trans (t.finish_completes _)
      · exact (s.misaddressed_completes peer).trans (ih _ _)
  | receive requests next ih =>
      intro s
      have hopen := openWaits_completes requests s
      have htry := tryWaits_completes (openWaits requests s).1 (openWaits requests s).2
      rw [drive, driveReceipts]
      simp only
      generalize openWaits requests s = opened at hopen htry ⊢
      refine hopen.trans (htry.trans ?_)
      cases Wait.answers? (tryWaits opened.1 opened.2).1 with
      | some answers => exact ih answers _
      | none => exact .of_deeds rfl
  | note entry next ih =>
      intro s
      exact .after (s.takesAmong_record rfl) (ih (s.record (.noted entry)))
  | keep next ih =>
      intro s
      have hkept : takesAmong ({ s with kept := true } : Session).deeds.toList =
          takesAmong s.deeds.toList := rfl
      exact .after hkept (ih { s with kept := true })
  | finish result => exact fun s => s.finish_completes result

theorem handshake_completes (gs : List Greeting) (s : Session) :
    s.Completes (s.runHandshake gs) (handshakeReceipts gs s) := by
  rw [runHandshake, handshakeReceipts]
  refine (collect_completes gs s).trans ?_
  generalize collect gs s = collected
  obtain ⟨gs, s⟩ := collected
  simp only
  cases s.handshake gs with
  | matched =>
      have hstart := (s.advance_completes .handshakeVerified).trans
        (advance_completes _ .computing)
      have hdrive := drive_completes s.engine
        (((s.advance .handshakeVerified).advance .computing).record .started)
      exact hstart.trans (.after (takesAmong_record _ rfl) hdrive)
  | unfinished => exact .of_deeds rfl
  | mismatch peer => exact s.conclude_completes _

theorem run_completes (s : Session) : s.Completes s.run s.runReceipts := by
  rw [run, runReceipts]
  cases s.worker with
  | fresh =>
      have hgreet := greet_completes s.peers s
      generalize greet s.peers s = greeted at hgreet ⊢
      obtain ⟨t, through⟩ := greeted
      cases through with
      | true => exact hgreet.trans ((t.advance_completes _).trans (handshake_completes _ _))
      | false => exact hgreet.trans (t.conclude_completes _)
  | greeting gs => exact handshake_completes gs s
  | waiting before next =>
      simp only
      refine (tryWaits_completes before s).trans ?_
      cases Wait.answers? (tryWaits before s).1 with
      | some answers => exact drive_completes _ _
      | none => exact .of_deeds rfl
  | ended => exact .refl s

theorem step_completes (s : Session) (e : Event) : s.Completes (s.step e).2 (s.stepReceipts e) := by
  cases e with
  | run => exact s.run_completes
  | message name bytes =>
      rw [Session.step]
      split
      · exact .refl s
      · rw [handleMessage]
        split
        · rename_i s' haccept
          obtain ⟨_, _, _, _, _, _, _, rfl⟩ := accept_eq_ok.mp haccept
          exact .of_deeds rfl
        · exact s.conclude_completes _
  | drop =>
      rw [Session.step]
      split
      · exact .refl s
      · rw [Session.drop, conclude_eq]
        exact .of_deeds rfl
  | keptSend peer channel bytes =>
      rw [Session.step]
      split
      · rw [keptSend]
        split
        · have hsend := s.transmit_completes peer (.engine channel) bytes
          split <;> rename_i heq <;> rw [heq] at hsend <;> exact hsend
        · exact s.misaddressed_completes peer
      · exact .refl s
  | keptReceive r =>
      rw [stepReceipts, Session.step]
      split
      · rw [keptReceive]
        split
        · cases htake : s.take? r.peer (.engine r.channel) r.count with
          | none => exact .refl s
          | some taken => exact .take htake
        · exact s.misaddressed_completes r.peer
      · exact .refl s

/-- Along a history exactly what receives return is taken. -/
theorem steps_completes (s : Session) (es : List Event) :
    s.Completes (s.steps es) (s.receipts es) := by
  induction es generalizing s with
  | nil => exact .refl s
  | cons e es ih => exact (s.step_completes e).trans (ih _)

/-! ## Conservation -/

/-- What is queued and what comes is what receives return and what is queued then. -/
theorem Standing.queue_steps {s : Session} (h : s.Standing) (es : List Event) (peer : Nat)
    (tag : Tag) :
    s.mailbox.queue peer tag ++ s.received es peer tag =
      returned (s.receipts es) peer tag ++ (s.steps es).mailbox.queue peer tag := by
  have hinbox := h.inbox_steps es peer tag
  rw [inbox, inbox, (s.steps_completes es).taken_eq, List.append_assoc, List.append_assoc]
    at hinbox
  exact (List.append_cancel_left hinbox).symm

theorem Standing.queue_step {s : Session} (h : s.Standing) (e : Event) (peer : Nat) (tag : Tag) :
    s.mailbox.queue peer tag ++ s.arrival peer tag e =
      returned (s.stepReceipts e) peer tag ++ (s.step e).2.mailbox.queue peer tag := by
  have hqueue := h.queue_steps [e] peer tag
  rw [received, received, receipts, receipts, List.append_nil, List.append_nil] at hqueue
  exact hqueue

/-- No byte is lost, returned twice, put out of order or into another queue, along every
history of a session.  Every completed receive returned as much as it asked for, and
an event that completes no receive of a peer and tag takes nothing of them, whatever
still waits or is given up. -/
theorem received_eq_returned {c : Compiled} {name : String} {values : Values}
    {program : EngineProgram} {faulty : Nat → Option String} {s : Session}
    (h : start c name values program faulty = .ok s) (es : List Event) (peer : Nat) (tag : Tag) :
    s.received es peer tag =
      returned (s.receipts es) peer tag ++ (s.steps es).mailbox.queue peer tag ∧
    (∀ r ∈ s.receipts es, r.bytes.length = r.count) ∧
    ∀ e, (∀ r ∈ (s.steps es).stepReceipts e, ¬ (r.peer = peer ∧ r.tag = tag)) →
      ((s.steps es).step e).2.mailbox.queue peer tag =
        (s.steps es).mailbox.queue peer tag ++ (s.steps es).arrival peer tag e := by
  have hstanding := start_standing h
  refine ⟨?_, (s.steps_completes es).counts, fun e hnone => ?_⟩
  · have hempty : s.mailbox.queue peer tag = [] := by
      obtain ⟨_, _, _, _, rfl⟩ := start_eq_ok h
      exact Mailbox.queue_empty peer tag
    rw [← hstanding.queue_steps, hempty, List.nil_append]
  · have hreturned : returned ((s.steps es).stepReceipts e) peer tag = [] := by
      rw [returned, List.filter_eq_nil_iff.mpr (by simpa using hnone), List.flatMap_nil]
    rw [(hstanding.steps es).queue_step, hreturned, List.nil_append]

/-- An engine that keeps its access and waits for four receives at once, three of them on
one queue. -/
def competingProgram : EngineProgram :=
  { least := 2
    most := 2
    acts := fun _ =>
      .keep (.receive [⟨1, .a, 2⟩, ⟨1, .a, 0⟩, ⟨1, .a, 3⟩, ⟨1, .b, 1⟩]
        fun _ => .finish (.returned [])) }

/-- Bytes come for these receives, the kept access takes one of them, and a bad message ends
the worker while two of the receives still wait. -/
def competingHistory : List Event :=
  [.message "bob" (0 :: List.replicate 33 7), .message "bob" [1, 1, 2, 3], .run,
    .keptReceive ⟨1, .a, 1⟩, .keptReceive ⟨1, .a, 1⟩, .message "bob" [1, 4, 5],
    .message "bob" [], .message "bob" [1, 6], .run]

theorem received_eq_returned_competing : ∃ s : Session,
    start pairCompiled "alice" (.ofList [("a", .int 1)]) competingProgram (fun _ => none) =
      .ok s ∧
    s.receipts competingHistory =
      [⟨1, .setup, 32, List.replicate 32 7⟩, ⟨1, .engine .a, 2, [1, 2]⟩, ⟨1, .engine .a, 0, []⟩,
        ⟨1, .engine .a, 1, [3]⟩] ∧
    s.received competingHistory 1 (.engine .a) =
      [1, 2, 3] ++ (s.steps competingHistory).mailbox.queue 1 (.engine .a) := by
  obtain ⟨s, hstart, hreceipts⟩ : ∃ s : Session,
      start pairCompiled "alice" (.ofList [("a", .int 1)]) competingProgram (fun _ => none) =
        .ok s ∧
      s.receipts competingHistory =
        [⟨1, .setup, 32, List.replicate 32 7⟩, ⟨1, .engine .a, 2, [1, 2]⟩,
          ⟨1, .engine .a, 0, []⟩, ⟨1, .engine .a, 1, [3]⟩] :=
    ⟨_, rfl, rfl⟩
  have hlaw := (received_eq_returned hstart competingHistory 1 (.engine .a)).1
  rw [hreceipts] at hlaw
  exact ⟨s, hstart, hreceipts, hlaw⟩

end Session

end JointCircuit

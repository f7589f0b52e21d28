import JointCircuit.Proofs.Session.Standing

/-!
# Histories

A run of the worker keeps the setup, the party and every inbox (`Session.run_keeps`).
Of all events only accepted messages make an inbox longer.

`Session.received` reads the payloads accepted from a peer under a tag off a row of
events, and `Session.inbox_steps` says that they are what is in the inbox after it.
-/

namespace JointCircuit

namespace Session

/-! ## What a run keeps -/

/-- A session changes to another one with the same setup, party and inboxes, and forgets
nothing that it did. -/
structure Keeps (s s' : Session) : Prop where
  compiled : s'.compiled = s.compiled
  party : s'.party = s.party
  faulty : s'.faulty = s.faulty
  dropped : s'.dropped = s.dropped
  inbox : ∀ peer tag, s'.inbox peer tag = s.inbox peer tag
  /-- What was done stays, and what is sent goes to other parties. -/
  deeds : ∃ ds, s'.deeds.toList = s.deeds.toList ++ ds ∧ s.Addressed ds

theorem Keeps.refl (s : Session) : s.Keeps s :=
  ⟨rfl, rfl, rfl, rfl, fun _ _ => rfl, [], (List.append_nil _).symm, s.addressed_nil⟩

theorem Keeps.addressed {s s' : Session} (h : s.Keeps s') {ds : List Deed}
    (hds : s'.Addressed ds) : s.Addressed ds := by
  intro peer tag payload hmem
  have hpeer := hds peer tag payload hmem
  rwa [isPeer, h.compiled, h.party] at hpeer

theorem Keeps.trans {s s' s'' : Session} (h : s.Keeps s') (h' : s'.Keeps s'') : s.Keeps s'' := by
  obtain ⟨ds, hds, haddressed⟩ := h.deeds
  obtain ⟨ds', hds', haddressed'⟩ := h'.deeds
  refine ⟨h'.compiled.trans h.compiled, h'.party.trans h.party, h'.faulty.trans h.faulty,
    h'.dropped.trans h.dropped, fun p t => (h'.inbox p t).trans (h.inbox p t), ds ++ ds', ?_,
    fun peer tag payload hmem => ?_⟩
  · rw [hds', hds, List.append_assoc]
  · exact (List.mem_append.mp hmem).elim (haddressed peer tag payload)
      (h.addressed haddressed' peer tag payload)

theorem Keeps.of_eq {s s' : Session} (hcompiled : s'.compiled = s.compiled)
    (hparty : s'.party = s.party) (hfaulty : s'.faulty = s.faulty)
    (hdropped : s'.dropped = s.dropped) (hmailbox : s'.mailbox = s.mailbox)
    (hdeeds : s'.deeds = s.deeds) : s.Keeps s' := by
  refine ⟨hcompiled, hparty, hfaulty, hdropped, fun p t => ?_, [], by simp [hdeeds],
    s.addressed_nil⟩
  rw [Session.inbox, taken, hmailbox, hdeeds, Session.inbox, taken]

theorem Act.keeps {s s' : Session} (h : Act s s') : s.Keeps s' := by
  obtain ⟨hcompiled, hparty, hfaulty, hdropped⟩ := h.frame
  obtain ⟨ds, hds, _, haddressed⟩ := h.deeds
  exact ⟨hcompiled, hparty, hfaulty, hdropped, h.inbox_eq, ds, hds, haddressed⟩

theorem Acts.keeps {s s' : Session} (h : Acts s s') : s.Keeps s' := by
  induction h with
  | refl => exact .refl s
  | tail _ hact ih => exact ih.trans hact.keeps

theorem Collected.keeps {s s' : Session} {gs gs' : List Greeting} (h : Collected s gs s' gs') :
    s.Keeps s' := by
  obtain ⟨mailbox, takes, hs', htakes⟩ := h.frame
  have hinbox := h.inbox
  subst hs'
  refine ⟨rfl, rfl, rfl, rfl, hinbox, takes.toList, Array.toList_append, fun p t bytes hmem => ?_⟩
  obtain ⟨_, _, htook⟩ := htakes _ (Array.mem_toList_iff.mp hmem)
  cases htook

theorem conclude_keeps (s : Session) (result : Except SessionError Results) :
    s.Keeps (s.conclude result) := by
  rw [conclude_eq]
  exact .of_eq rfl rfl rfl rfl rfl rfl

theorem advance_keeps (s : Session) (stage : Stage) : s.Keeps (s.advance stage) := by
  rw [advance]
  split
  · exact .refl s
  · exact .of_eq rfl rfl rfl rfl rfl rfl

theorem startEngine_keeps (s : Session) : s.Keeps s.startEngine := by
  have hrecord : ∀ t : Session, t.Keeps (t.record .started) := fun t =>
    ⟨rfl, rfl, rfl, rfl, fun p u => by
      rw [Session.inbox, taken_push rfl fun _ _ => rfl]
      rfl, [.started], Array.toList_push, by simp [Addressed]⟩
  exact (((s.advance_keeps _).trans (advance_keeps _ _)).trans (hrecord _)).trans
    (drive_acts _ _).keeps

theorem runHandshake_keeps (gs : List Greeting) (s : Session) :
    s.Keeps (s.runHandshake gs) := by
  have hcollected := (collect_collected gs s).keeps
  rw [runHandshake]
  simp only
  split
  · exact hcollected.trans (startEngine_keeps _)
  · exact hcollected.trans (.of_eq rfl rfl rfl rfl rfl rfl)
  · exact hcollected.trans (conclude_keeps _ _)

theorem mem_peers {s : Session} {q : Nat} : q ∈ s.peers ↔ s.isPeer q = true := by
  simp [peers, otherParties, isPeer]

theorem greet_keeps (s : Session) : s.Keeps (greet s.peers s).1 := by
  obtain ⟨done, attempts, hdone, heq, _⟩ := greet_eq s.peers s
  rw [heq]
  refine ⟨rfl, rfl, rfl, rfl, fun p t => ?_, done.map s.greetingTo, Array.toList_append,
    fun peer tag payload hmem => ?_⟩
  · have hnone : takenAmong (done.map s.greetingTo) p t = [] := by
      rw [takenAmong, List.flatMap_eq_nil_iff]
      intro d hd
      obtain ⟨peer, _, rfl⟩ := List.mem_map.mp hd
      rfl
    simp only [Session.inbox, taken, Array.toList_append, takenAmong_append, hnone,
      List.append_nil]
  · obtain ⟨q, hq, heq⟩ := List.mem_map.mp hmem
    cases heq
    exact mem_peers.mp (hdone.subset hq)

/-- A run keeps the setup, the party, the inboxes and the deeds. -/
theorem Standing.run_keeps {s : Session} (h : s.Standing) : s.Keeps s.run := by
  rw [Session.run]
  split
  · have hgreet := s.greet_keeps
    split
    · rename_i heq
      rw [heq] at hgreet
      exact (hgreet.trans (advance_keeps _ _)).trans (runHandshake_keeps _ _)
    · rename_i heq
      rw [heq] at hgreet
      exact hgreet.trans (conclude_keeps _ _)
  · exact runHandshake_keeps _ _
  · rename_i ws next hworker
    have hacts := (tryWaits_acts ws (h.valid hworker)).1
    simp only
    split
    · exact hacts.keeps.trans (drive_acts _ _).keeps
    · exact hacts.keeps.trans (.of_eq rfl rfl rfl rfl rfl rfl)
  · exact .refl s

/-! ## What is received along a history -/

/-- The payload an event brings from a peer under a tag. -/
def arrival (s : Session) (peer : Nat) (tag : Tag) : Event → Bytes
  | .message name (b :: payload) =>
      if s.dropped = false ∧ s.peerNamed? name = some peer ∧ Tag.ofByte? b = some tag then payload
      else []
  | _ => []

/-- The payloads accepted from a peer under a tag along a row of events. -/
def received : Session → List Event → Nat → Tag → Bytes
  | _, [], _, _ => []
  | s, e :: es, peer, tag => s.arrival peer tag e ++ received (s.step e).2 es peer tag

/-- A message makes the inbox of its peer and tag longer by its payload, if it is
accepted, and changes no other inbox. -/
theorem handleMessage_inbox (s : Session) (name : String) (bytes : Bytes) (peer : Nat) (tag : Tag)
    (hdropped : s.dropped = false) :
    (s.handleMessage name bytes).2.inbox peer tag =
      s.inbox peer tag ++ s.arrival peer tag (.message name bytes) := by
  rw [handleMessage]
  split
  · rename_i s' haccept
    obtain ⟨p, b, payload, t, hpeer, rfl, htag, rfl⟩ := accept_eq_ok.mp haccept
    have harrival : s.arrival peer tag (.message name (b :: payload)) =
        if peer = p ∧ tag = t then payload else [] := by
      simp only [arrival, hdropped, hpeer, htag, true_and, Option.some.injEq, eq_comm]
    rw [inbox_push, harrival]
  · rename_i e haccept
    have hnone : s.arrival peer tag (.message name bytes) = [] := by
      cases bytes with
      | nil => rfl
      | cons b payload =>
          rw [arrival, if_neg]
          rintro ⟨_, hpeer, htag⟩
          rw [accept_eq_ok.mpr ⟨peer, b, payload, tag, hpeer, rfl, htag, rfl⟩] at haccept
          cases haccept
    rw [hnone, List.append_nil]
    exact (conclude_keeps s _).inbox peer tag

/-- An event makes an inbox longer by what it brings. -/
theorem Standing.inbox_step {s : Session} (h : s.Standing) (e : Event) (peer : Nat) (tag : Tag) :
    (s.step e).2.inbox peer tag = s.inbox peer tag ++ s.arrival peer tag e := by
  cases e with
  | run => exact (h.run_keeps.inbox peer tag).trans (List.append_nil _).symm
  | message name bytes =>
      rw [Session.step]
      split
      · rename_i hdropped
        cases bytes with
        | nil => exact (List.append_nil _).symm
        | cons b payload => rw [arrival, if_neg (by simp [hdropped]), List.append_nil]
      · rename_i hdropped
        exact s.handleMessage_inbox name bytes peer tag (Bool.not_eq_true _ ▸ hdropped)
  | drop =>
      refine Eq.trans ?_ (List.append_nil _).symm
      rw [Session.step]
      split
      · rfl
      · exact (conclude_keeps s _).inbox peer tag
  | keptSend p channel bytes =>
      refine Eq.trans ?_ (List.append_nil _).symm
      rw [Session.step]
      split
      · exact (s.keptSend_acts p channel bytes).inbox_eq peer tag
      · rfl
  | keptReceive request =>
      refine Eq.trans ?_ (List.append_nil _).symm
      rw [Session.step]
      split
      · exact (s.keptReceive_acts request).inbox_eq peer tag
      · rfl

/-- Along a history an inbox grows by the payloads received. -/
theorem Standing.inbox_steps {s : Session} (h : s.Standing) (es : List Event) (peer : Nat)
    (tag : Tag) : (s.steps es).inbox peer tag = s.inbox peer tag ++ s.received es peer tag := by
  induction es generalizing s with
  | nil => exact (List.append_nil _).symm
  | cons e es ih =>
      rw [Session.steps, received, ih (h.step e), h.inbox_step, List.append_assoc]

/-- An event keeps the setup, the party and the faults of the transport. -/
theorem Standing.step_frame {s : Session} (h : s.Standing) (e : Event) :
    (s.step e).2.compiled = s.compiled ∧ (s.step e).2.party = s.party ∧
      (s.step e).2.faulty = s.faulty := by
  have hkeeps : ∀ {t : Session}, s.Keeps t →
      t.compiled = s.compiled ∧ t.party = s.party ∧ t.faulty = s.faulty :=
    fun hkeeps => ⟨hkeeps.compiled, hkeeps.party, hkeeps.faulty⟩
  cases e with
  | run => exact hkeeps h.run_keeps
  | message name bytes =>
      rw [Session.step]
      split
      · exact ⟨rfl, rfl, rfl⟩
      · rw [handleMessage]
        split
        · rename_i s' haccept
          obtain ⟨_, _, _, _, _, _, _, rfl⟩ := accept_eq_ok.mp haccept
          exact ⟨rfl, rfl, rfl⟩
        · exact hkeeps (conclude_keeps s _)
  | drop =>
      rw [Session.step]
      split
      · exact ⟨rfl, rfl, rfl⟩
      · have hend := s.conclude_keeps (.error .stopped)
        exact ⟨hend.compiled, hend.party, hend.faulty⟩
  | keptSend p channel bytes =>
      rw [Session.step]
      split
      · exact hkeeps (s.keptSend_acts p channel bytes).keeps
      · exact ⟨rfl, rfl, rfl⟩
  | keptReceive request =>
      rw [Session.step]
      split
      · exact hkeeps (s.keptReceive_acts request).keeps
      · exact ⟨rfl, rfl, rfl⟩

theorem Standing.steps_frame {s : Session} (h : s.Standing) (es : List Event) :
    (s.steps es).compiled = s.compiled ∧ (s.steps es).party = s.party ∧
      (s.steps es).faulty = s.faulty := by
  induction es generalizing s with
  | nil => exact ⟨rfl, rfl, rfl⟩
  | cons e es ih =>
      obtain ⟨hc, hp, hf⟩ := h.step_frame e
      obtain ⟨hc', hp', hf'⟩ := ih (h.step e)
      exact ⟨hc'.trans hc, hp'.trans hp, hf'.trans hf⟩

/-- Of a session that was started, an inbox holds what was received since. -/
theorem inbox_steps {c : Compiled} {name : String} {values : Values} {program : EngineProgram}
    {faulty : Nat → Option String} {s : Session} (h : start c name values program faulty = .ok s)
    (es : List Event) (peer : Nat) (tag : Tag) :
    (s.steps es).inbox peer tag = s.received es peer tag := by
  rw [(start_standing h).inbox_steps]
  obtain ⟨party, inputs, _, _, rfl⟩ := start_eq_ok h
  simp [inbox, taken, takenAmong]

end Session

end JointCircuit

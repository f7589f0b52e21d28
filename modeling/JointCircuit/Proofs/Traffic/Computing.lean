import JointCircuit.Proofs.Plaintext.Inputs
import JointCircuit.Proofs.Plaintext.Progress
import JointCircuit.Proofs.Session.Idle

/-!
# A computation of all parties

All parties of a compiled setup run the plaintext engine, and their messages are delivered
in whatever order free traffic allows, in one piece or cut.  Every session stays at a
position (`Traffic.Computing.steps`), because what it received of a peer is the beginning
of what that one sends by the law of traffic.

When all parties sent the same streams and nothing is on its way, any session that runs
sends the next one (`Traffic.Computing.advance`).  So traffic that has come to rest has no
session left that waits (`Traffic.Computing.settled`).
-/

namespace JointCircuit

/-- The plaintext engine, for two parties or more. -/
def Plaintext.program : EngineProgram := ⟨2, maxIndex, Plaintext.acts⟩

namespace Computation

variable {c : Compiled} {k : Computation c} {s : Session} {i : Nat}

theorem Position.compiled (h : k.Position s i) : s.compiled = c := by
  cases h with
  | fresh _ _ h => exact h.compiled
  | greeting _ _ h => exact h.compiled
  | gathering _ _ _ h => exact h.compiled
  | comparing _ _ h => exact h.compiled
  | ended _ compiled => exact compiled

/-- A stream that was sent was sent as a whole, and no other one was begun. -/
theorem Position.sent (h : k.Position s i) {q : Nat} (hq : q ∈ s.peers) (tag : Tag) :
    s.sentTo (s.nameOf q) tag = if tag.index < i then k.stream s.party tag else [] := by
  cases h with
  | fresh _ _ h => exact h.sent q hq tag
  | greeting _ _ h => exact h.sent q hq tag
  | gathering _ _ _ h => exact h.sent q hq tag
  | comparing _ _ h => exact h.sent q hq tag
  | ended _ _ _ sent => rw [sent q hq tag, if_pos (Nat.lt_succ_of_lt tag.index_lt)]

/-- A session has no result before its end, and that is the share of its party. -/
theorem Position.result (h : k.Position s i) :
    s.result = none ∧ i < 4 ∨ s.result = some (k.share s.party) := by
  cases h with
  | fresh _ _ h => exact .inl ⟨h.result, by decide⟩
  | greeting _ _ h => exact .inl ⟨h.result, by decide⟩
  | gathering _ _ _ h => exact .inl ⟨h.result, by decide⟩
  | comparing _ _ h => exact .inl ⟨h.result, by decide⟩
  | ended _ _ result => exact .inr result

theorem Position.push (h : k.Position s i) (p : Nat) (t : Tag) (payload : Bytes) :
    k.Position { s with mailbox := s.mailbox.push p t payload } i := by
  have hkeeps : ∀ {sent : Nat} {got : Nat → Channel → Bool}, k.Playing s sent got →
      k.Playing { s with mailbox := s.mailbox.push p t payload } sent got :=
    fun h => h.congr rfl rfl rfl rfl (fun _ _ => rfl) fun _ _ => rfl
  cases h with
  | fresh worker hengine h => exact .fresh worker hengine (hkeeps h)
  | greeting worker hengine h => exact .greeting worker hengine (hkeeps h)
  | gathering worker hcount hpeer h => exact .gathering worker hcount hpeer (hkeeps h)
  | comparing worker hpeers h => exact .comparing worker hpeers (hkeeps h)
  | ended worker compiled result sent => exact .ended worker compiled result sent

end Computation

namespace Traffic

variable {c : Compiled} {k : Computation c}

/-- All parties of a compiled setup compute something together. -/
structure Computing (k : Computation c) (t : Traffic (Fin c.parties.length)) : Prop where
  lawful : t.Lawful
  party : ∀ i, (t.session i).party = i
  position : ∀ i, ∃ sent, k.Position (t.session i) sent

namespace Computing

variable {t : Traffic (Fin c.parties.length)} {i j : Fin c.parties.length}

theorem compiled (h : Computing k t) (i : Fin c.parties.length) : (t.session i).compiled = c := by
  obtain ⟨_, hposition⟩ := h.position i
  exact hposition.compiled

theorem nameOf_eq (h : Computing k t) (i j : Fin c.parties.length) :
    (t.session j).nameOf i = (t.session i).ownName := by
  rw [Session.ownName, h.party, Session.nameOf_congr ((h.compiled j).trans (h.compiled i).symm)]

theorem mem_peers (h : Computing k t) {q : Nat} :
    q ∈ (t.session j).peers ↔ ∃ i : Fin c.parties.length, i ≠ j ∧ (i : Nat) = q := by
  rw [Session.peers, h.compiled, h.party, otherParties, List.mem_filter, List.mem_range,
    decide_eq_true_iff]
  constructor
  · rintro ⟨hlt, hne⟩
    exact ⟨⟨q, hlt⟩, fun heq => hne (congrArg Fin.val heq), rfl⟩
  · rintro ⟨i, hne, rfl⟩
    exact ⟨i.isLt, fun heq => hne (Fin.ext heq)⟩

theorem ownName_eq (h : Computing k t) (i : Fin c.parties.length) :
    (t.session i).ownName = (c.parties.get i).name := by
  rw [Session.ownName, h.party, Session.nameOf, Session.names, h.compiled,
    List.getD_eq_getElem?_getD, List.getElem?_map, List.getElem?_eq_getElem i.isLt]
  rfl

/-- The parties know each other by their names. -/
theorem peerNamed? (h : Computing k t) (hne : i ≠ j) :
    (t.session j).peerNamed? (t.session i).ownName = some i := by
  have hindex : partyIndex? c.parties (c.parties.get i).name = some i :=
    partyIndex?_eq_some k.names (List.getElem?_eq_getElem i.isLt)
  rw [Session.peerNamed?, Compiled.partyIndex?, h.compiled, h.ownName_eq, hindex, h.party]
  exact if_neg fun heq => hne (Fin.ext heq)

/-- What a session received of a peer and what is on its way is what the peer sent. -/
theorem received (h : Computing k t) (hne : i ≠ j) {sent : Nat}
    (hposition : k.Position (t.session i) sent) (tag : Tag) :
    (t.session j).inbox i tag ++ carried tag (t.flight i (t.session j).ownName) =
      if tag.index < sent then k.stream i tag else [] := by
  have hpeer : (j : Nat) ∈ (t.session i).peers := h.mem_peers.mpr ⟨j, hne.symm, rfl⟩
  rw [← h.lawful.law i j i tag (h.peerNamed? hne), ← h.nameOf_eq j i, hposition.sent hpeer, h.party]

/-- All peers keep to their streams. -/
theorem fed (h : Computing k t) (j : Fin c.parties.length) : k.Fed (t.session j) := by
  intro q hq tag
  obtain ⟨i, hne, rfl⟩ := h.mem_peers.mp hq
  obtain ⟨sent, hposition⟩ := h.position i
  have hfront := List.prefix_append ((t.session j).inbox i tag)
    (carried tag (t.flight i (t.session j).ownName))
  rw [h.received hne hposition] at hfront
  refine hfront.trans ?_
  split
  · exact List.prefix_rfl
  · exact List.nil_prefix

/-! ## Moves -/

theorem run (h : Computing k t) (i : Fin c.parties.length) : Computing k (t.run i) := by
  have hkeeps := (h.lawful.standing i).run_keeps
  refine ⟨h.lawful.step (.run i), fun j => ?_, fun j => ?_⟩
  · by_cases hj : j = i
    · subst hj
      rw [run_session_self]
      exact hkeeps.party.trans (h.party j)
    · rw [run_session_of_ne t hj]
      exact h.party j
  · by_cases hj : j = i
    · subst hj
      obtain ⟨sent, hposition⟩ := h.position j
      obtain ⟨sent', _, hposition'⟩ := hposition.run (h.fed j) (h.lawful.standing j)
      rw [run_session_self]
      exact ⟨sent', hposition'⟩
    · rw [run_session_of_ne t hj]
      exact h.position j

/-- A message that is delivered is put into the mailbox. -/
theorem message_eq (h : Computing k t) {m : Bytes} {ms : List Bytes}
    (hflight : t.flight i (t.session j).ownName = m :: ms) : ∃ tag payload,
    ((t.session j).step (.message (t.session i).ownName m)).2 =
      { t.session j with mailbox := (t.session j).mailbox.push i tag payload } := by
  obtain ⟨tag, payload, rfl⟩ := h.lawful.framed i _ m (hflight ▸ List.mem_cons_self)
  have hne : i ≠ j := by
    obtain ⟨q, hq, hname⟩ := h.lawful.addressed i (t.session j).ownName (by simp [hflight])
    obtain ⟨r, hr, rfl⟩ := h.mem_peers.mp hq
    rw [h.nameOf_eq r i] at hname
    exact fun heq => hr ((h.lawful.names hname).trans heq.symm)
  have haccept := Session.accept_eq_ok.mpr
    ⟨i, tag.byte, payload, tag, h.peerNamed? hne, rfl, Tag.ofByte?_byte tag, rfl⟩
  refine ⟨tag, payload, ?_⟩
  rw [Session.step, if_neg (by simp [h.lawful.held j]), Session.handleMessage, Session.frame,
    haccept]

theorem deliver_session (h : Computing k t) (i j a : Fin c.parties.length) :
    (t.deliver i j).session a = t.session a ∨ ∃ peer tag payload, (t.deliver i j).session a =
      { t.session a with mailbox := (t.session a).mailbox.push peer tag payload } := by
  rw [Traffic.deliver]
  cases hflight : t.flight i (t.session j).ownName with
  | nil => exact .inl rfl
  | cons m ms =>
      obtain ⟨tag, payload, hstep⟩ := h.message_eq hflight
      simp only [hstep]
      by_cases ha : a = j
      · subst ha
        exact .inr ⟨i, tag, payload, Function.update_self a _ _⟩
      · exact .inl (Function.update_of_ne ha _ _)

theorem deliver_position (h : Computing k t) (i j : Fin c.parties.length)
    {a : Fin c.parties.length} {sent : Nat} (hposition : k.Position (t.session a) sent) :
    k.Position ((t.deliver i j).session a) sent := by
  rcases h.deliver_session i j a with heq | ⟨peer, tag, payload, heq⟩
  · exact heq ▸ hposition
  · exact heq ▸ hposition.push peer tag payload

theorem deliver (h : Computing k t) (i j : Fin c.parties.length) : Computing k (t.deliver i j) := by
  refine ⟨h.lawful.step (.deliver i j), fun a => ?_, fun a => ?_⟩
  · rcases h.deliver_session i j a with heq | ⟨peer, tag, payload, heq⟩
    · exact heq ▸ h.party a
    · exact heq ▸ h.party a
  · obtain ⟨sent, hposition⟩ := h.position a
    exact ⟨sent, h.deliver_position i j hposition⟩

theorem step (h : Computing k t) (m : Move (Fin c.parties.length)) : Computing k (t.step m) := by
  cases m with
  | run i => exact h.run i
  | deliver i j => exact h.deliver i j
  | cut i name number size =>
      exact ⟨h.lawful.step (.cut i name number size), h.party, h.position⟩

theorem steps (h : Computing k t) (ms : List (Move (Fin c.parties.length))) :
    Computing k (t.steps ms) := by
  induction ms generalizing t with
  | nil => exact h
  | cons m ms ih => exact ih (h.step m)

/-! ## Results -/

/-- No session has another result than the share of its party. -/
theorem result (h : Computing k t) (i : Fin c.parties.length) :
    (t.session i).result = none ∨ (t.session i).result = some (k.share i) := by
  obtain ⟨sent, hposition⟩ := h.position i
  rw [← h.party i]
  exact hposition.result.imp_left And.left

/-- When all parties sent the first streams and nothing is on its way, a run of any session
leads to where the next stream was sent, or to the end. -/
theorem advance (h : Computing k t) (hempty : ∀ i j, t.flight i (t.session j).ownName = [])
    {n : Nat} (hn : n < 4) (hall : ∀ i, ∃ sent, n ≤ sent ∧ k.Position (t.session i) sent)
    (j : Fin c.parties.length) : ∃ sent, n < sent ∧ k.Position (t.session j).run sent := by
  have hstanding := h.lawful.standing j
  have hkeeps := hstanding.run_keeps
  obtain ⟨_, hposition⟩ := h.position j
  obtain ⟨sent, hstart, hrun⟩ := hposition.run (h.fed j) hstanding
  refine ⟨sent, Nat.lt_of_not_le fun hle => ?_, hrun⟩
  obtain ⟨q, hq, tag, htag, hmiss⟩ :=
    hrun.blocked hstart (by omega) hstanding.run hstanding.run_run
  rw [Session.peers_congr hkeeps.compiled hkeeps.party] at hq
  obtain ⟨i, hne, rfl⟩ := h.mem_peers.mp hq
  -- the peer sent the stream, and nothing of it is on its way
  obtain ⟨sent', hle', hpeer⟩ := hall i
  have hreceived := h.received hne hpeer tag
  rw [hempty, if_pos (by omega)] at hreceived
  exact hmiss ((hkeeps.inbox i tag).trans ((List.append_nil _).symm.trans hreceived))

/-- In traffic that has come to rest all parties sent the first streams. -/
theorem sent_of_quiet (h : Computing k t) (hquiet : t.Quiet) :
    ∀ n ≤ 4, ∀ i, ∃ sent, n ≤ sent ∧ k.Position (t.session i) sent
  | 0, _, i => by
      obtain ⟨sent, hposition⟩ := h.position i
      exact ⟨sent, Nat.zero_le _, hposition⟩
  | n + 1, hn, i => by
      have hall := sent_of_quiet h hquiet n (by omega)
      obtain ⟨sent, hlt, hposition⟩ := h.advance hquiet.1 (by omega) hall i
      exact ⟨sent, hlt, hquiet.2 i ▸ hposition⟩

/-- In traffic that has come to rest every session has the share of its party. -/
theorem settled (h : Computing k t) (hquiet : t.Quiet) (i : Fin c.parties.length) :
    (t.session i).result = some (k.share i) := by
  obtain ⟨sent, hle, hposition⟩ := h.sent_of_quiet hquiet 4 (Nat.le_refl 4) i
  rw [← h.party i]
  exact hposition.result.resolve_left fun hnone => absurd hnone.2 (Nat.not_lt.mpr hle)

end Computing

/-! ## From the start -/

/-- A party whose values are accepted can start a session. -/
theorem start_eq_ok (hnames : (c.parties.map Party.name).Nodup) (hleast : 2 ≤ c.parties.length)
    (hmost : c.parties.length ≤ maxIndex) (i : Fin c.parties.length) {values : Values}
    (haccept : ∃ bits, c.encodeInput (c.parties.get i).name values = .ok bits) :
    ∃ s, Session.start c (c.parties.get i).name values Plaintext.program (fun _ => none) =
      .ok s := by
  obtain ⟨bits, hbits⟩ := haccept
  have hindex : c.partyIndex? (c.parties.get i).name = some i :=
    partyIndex?_eq_some hnames (List.getElem?_eq_getElem i.isLt)
  have hcount : ¬ (c.parties.length < 2 ∨ maxIndex < c.parties.length) := by omega
  rw [Session.start, Plaintext.program]
  simp only [if_neg hcount, hindex, hbits]
  exact ⟨_, rfl⟩

/-- Sessions of all parties start a computation. -/
theorem start_computing {inputs : Fin c.parties.length → Values}
    {session : Fin c.parties.length → Session}
    (hbits : ∀ i, c.encodeInput (c.parties.get i).name (inputs i) = .ok (k.bits i))
    (hstart : ∀ i, Session.start c (c.parties.get i).name (inputs i) Plaintext.program
      (fun _ => none) = .ok (session i)) : Computing k (start session) := by
  have hsession : ∀ i, session i =
      { compiled := c
        party := i
        engine := k.engine i
        faulty := fun _ => none
        mailbox := Mailbox.empty
        stage := .created
        result := none
        worker := .fresh
        attempts := 0
        deeds := #[]
        kept := false
        dropped := false } := by
    intro i
    obtain ⟨party, bits, hparty, henc, heq⟩ := Session.start_eq_ok (hstart i)
    obtain rfl : party = i :=
      Option.some.inj (hparty.symm.trans
        (partyIndex?_eq_some k.names (List.getElem?_eq_getElem i.isLt)))
    obtain rfl : bits = k.bits i := Except.ok.inj (henc.symm.trans (hbits i))
    exact heq
  have hname : ∀ i, (session i).ownName = (c.parties.get i).name := by
    intro i
    rw [hsession, Session.ownName, Session.nameOf, Session.names, List.getD_eq_getElem?_getD,
      List.getElem?_map, List.getElem?_eq_getElem i.isLt]
    rfl
  refine ⟨start_lawful (fun i j heq => ?_) fun i => ⟨_, _, _, _, _, hstart i⟩, fun i => ?_,
    fun i => ⟨0, ?_⟩⟩
  · have hsame : (c.parties.map Party.name)[i] = (c.parties.map Party.name)[j] := by
      simpa [hname] using heq
    exact Fin.ext ((List.Nodup.getElem_inj_iff k.names).mp hsame)
  · exact congrArg Session.party (hsession i)
  · change k.Position (session i) 0
    rw [hsession]
    refine .fresh rfl rfl ⟨rfl, fun _ => rfl, rfl, fun q _ tag => ?_, fun q _ channel => ?_⟩
    · rw [if_neg (Nat.not_lt_zero _)]
      rfl
    · rfl

end Traffic

end JointCircuit

import JointCircuit.Proofs.Compiled.Stages
import JointCircuit.Proofs.Plaintext.Position
import JointCircuit.Proofs.Session.Delivery
import JointCircuit.Proofs.Setup.Unambiguous
import Mathlib.Data.Fin.VecNotation
import Mathlib.Data.List.Flatten

/-!
# Agreement across parties

Sessions that were started from setups of their own, which may differ in their circuits and
in the number, names and order of their parties.  Their messages are delivered in order, and
any of them may get lost on its way (`Traffic.LossyMove`).

What was received and what is on its way is then still a part of what was sent, in its order
(`Traffic.Thinned`).  For the handshake a session sends no more than its fingerprint to a
name (`Session.Standing.sentTo_setup`).  So a fingerprint that a session got from a peer is
that of the session with the name of the peer, whatever indices the two have for each other
(`Traffic.Thinned.exists_greeter`).

A session starts its engine only after it got its own fingerprint from all peers, and so all
parties of its setup have sessions with this fingerprint (`Traffic.setups_agree`).  Where the
hash does not collide they have the same setup.
-/

namespace JointCircuit

theorem Fingerprint.bytes_inj {f g : Fingerprint} (h : f.bytes = g.bytes) : f = g := by
  cases f
  cases g
  cases h
  rfl

namespace Session

/-- A session has the setup and the name it was started with. -/
theorem start_frame {c : Compiled} {name : String} {values : Values} {program : EngineProgram}
    {faulty : Nat → Option String} {s : Session} (h : start c name values program faulty = .ok s) :
    s.compiled = c ∧ s.ownName = name := by
  obtain ⟨party, _, hparty, _, rfl⟩ := start_eq_ok h
  exact ⟨rfl, nameOf_partyIndex? hparty⟩

/-- Greetings carry the fingerprint to those peers that have the name. -/
theorem carried_greetings (s : Session) (peers : List Nat) (name : String) :
    carried .setup ((peers.map fun peer =>
        (peer, frame .setup s.compiled.fingerprint.bytes)).filterMap fun m =>
          if s.nameOf m.1 = name then some m.2 else none) =
      peers.flatMap fun peer =>
        if s.nameOf peer = name then s.compiled.fingerprint.bytes else [] := by
  rw [List.filterMap_map, List.filterMap_eq_flatMap_toList, carried, List.flatMap_assoc]
  refine congrArg (List.flatMap · peers) (funext fun peer => ?_)
  by_cases hpeer : s.nameOf peer = name
  · simp [hpeer, frame, Tag.ofByte?_byte]
  · simp [hpeer]

/-- From the start of its engine on, a session sends nothing for the handshake. -/
theorem Standing.sentToAmong_sequel {s : Session} (h : s.Standing) (name : String) :
    s.sentToAmong s.sequel name .setup = [] := by
  rw [sentToAmong, List.flatMap_eq_nil_iff]
  intro d hd
  cases d with
  | sent peer tag payload =>
      refine if_neg fun hsetup => ?_
      obtain ⟨_, rfl⟩ := hsetup
      exact h.sent.2 _ (mem_sentAmong.mpr ⟨peer, .setup, payload, hd, rfl⟩) rfl
  | _ => rfl

/-- For the handshake a session sends nothing to a name, or its fingerprint once. -/
theorem Standing.sentTo_setup {s : Session} (h : s.Standing)
    (hnames : (s.compiled.parties.map Party.name).Nodup) (name : String) :
    s.sentTo name .setup = [] ∨ s.sentTo name .setup = s.compiled.fingerprint.bytes := by
  have hsplit : s.deeds.toList = s.opening ++ s.sequel := List.takeWhile_append_dropWhile.symm
  -- the greetings are those of the first peers
  obtain ⟨count, hgreeted⟩ : ∃ count, sentAmong s.opening =
      (s.peers.take count).map fun peer => (peer, frame .setup s.compiled.fingerprint.bytes) :=
    ⟨_, by rw [List.map_take]; exact List.prefix_iff_eq_take.mp h.sent.1⟩
  rw [sentTo, hsplit, sentToAmong_append, h.sentToAmong_sequel, List.append_nil, ← carried_mailTo,
    mailTo, hgreeted, carried_greetings]
  by_cases hpeer : ∃ q ∈ s.peers.take count, s.nameOf q = name
  · obtain ⟨q, hq, rfl⟩ := hpeer
    have hlt : ∀ p ∈ s.peers.take count, p < s.compiled.parties.length := fun p hp =>
      List.mem_range.mp (List.mem_of_mem_filter (List.mem_of_mem_take hp))
    right
    rw [flatMap_of_unique (s.nodup_peers.sublist (List.take_sublist _ _)) hq fun p hp hne => ?_,
      if_pos rfl]
    exact if_neg fun heq => hne (nameOf_inj hnames (hlt p hp) (hlt q hq) heq)
  · left
    exact List.flatMap_eq_nil_iff.mpr fun p hp => if_neg fun heq => hpeer ⟨p, hp, heq⟩

end Session

namespace Traffic

variable {ι : Type} {t : Traffic ι}

/-- What was received and what is on its way is a part of what was sent. -/
abbrev Thinned (t : Traffic ι) : Prop := t.Accounted fun sent got => got.Sublist sent

/-- A fingerprint got from a peer is that of the session with the name of the peer. -/
theorem Thinned.exists_greeter (h : t.Thinned)
    (hnames : ∀ i, ((t.session i).compiled.parties.map Party.name).Nodup) {i : ι} {q : Nat}
    (hgot : (t.session i).compiled.fingerprint.bytes <+: (t.session i).inbox q .setup) :
    ∃ j, (t.session j).ownName = (t.session i).nameOf q ∧
      (t.session j).compiled.fingerprint = (t.session i).compiled.fingerprint := by
  have hlength := hgot.length_le
  rw [Fingerprint.size_eq, fingerprintSize] at hlength
  obtain ⟨j, hj⟩ := h.known i q .setup fun hnil => by
    rw [hnil] at hlength
    cases hlength
  refine ⟨j, (Session.nameOf_peerNamed? hj).symm, ?_⟩
  -- what was got is a part of what the peer sent, which is its own fingerprint or nothing
  have hpart : (t.session i).compiled.fingerprint.bytes.Sublist
      ((t.session j).sentTo (t.session i).ownName .setup) :=
    (hgot.sublist.trans (List.sublist_append_left _ _)).trans (h.law j i q .setup hj)
  rcases (h.standing j).sentTo_setup (hnames j) (t.session i).ownName with hsent | hsent
  · have hnone := hpart.length_le
    rw [hsent, Fingerprint.size_eq] at hnone
    cases hnone
  · rw [hsent] at hpart
    have hbytes := hpart.eq_of_length (by rw [Fingerprint.size_eq, Fingerprint.size_eq])
    exact Fingerprint.bytes_inj hbytes.symm

/-- Every party of a session that started its engine has a session with the same
fingerprint. -/
theorem Thinned.exists_agreed (h : t.Thinned)
    (hnames : ∀ i, ((t.session i).compiled.parties.map Party.name).Nodup) {i : ι}
    (hcommitted : (t.session i).Committed) {p : Party}
    (hp : p ∈ (t.session i).compiled.parties) :
    ∃ j, (t.session j).ownName = p.name ∧
      (t.session j).compiled.fingerprint = (t.session i).compiled.fingerprint := by
  obtain ⟨q, hq⟩ := List.mem_iff_getElem?.mp hp
  have hname : (t.session i).nameOf q = p.name := by
    rw [Session.nameOf, Session.names, List.getD_eq_getElem?_getD, List.getElem?_map, hq]
    rfl
  by_cases hself : q = (t.session i).party
  · exact ⟨i, by rw [Session.ownName, ← hself, hname], rfl⟩
  · obtain ⟨hlt, _⟩ := List.getElem?_eq_some_iff.mp hq
    have hpeer : q ∈ (t.session i).peers :=
      Session.mem_peers.mpr (by simp [Session.isPeer, hlt, hself])
    rw [← hname]
    exact h.exists_greeter hnames ((h.standing i).agreed hcommitted q hpeer)

variable [DecidableEq ι]

/-! ## Lost messages -/

/-- What can happen next where messages get lost. -/
inductive LossyMove (ι : Type) where
  | move (m : Move ι)
  /-- A message from a session to a name gets lost. -/
  | lose (i : ι) (name : String) (number : Nat)

/-- The traffic after a move. -/
def lossyStep (t : Traffic ι) : LossyMove ι → Traffic ι
  | .move m => t.step m
  | .lose i name number =>
      { t with
        flight := Function.update t.flight i
          (Function.update (t.flight i) name ((t.flight i name).eraseIdx number)) }

/-- The traffic after a schedule. -/
def lossySteps : Traffic ι → List (LossyMove ι) → Traffic ι
  | t, [] => t
  | t, m :: ms => lossySteps (t.lossyStep m) ms

namespace Thinned

theorem lossyStep (h : t.Thinned) (m : LossyMove ι) : (t.lossyStep m).Thinned := by
  cases m with
  | move m => exact h.step (fun z hxy => hxy.append_right z) m
  | lose i name number =>
      have hsublist := (t.flight i name).eraseIdx_sublist number
      refine h.replace i name (fun m hm => h.framed i name m (hsublist.mem hm)) (fun hnil => ?_)
        fun tag x y hxy => ?_
      · rw [hnil, List.eraseIdx_nil]
      · exact ((hsublist.flatMap _).append_left y).trans hxy

theorem lossySteps (h : t.Thinned) (ms : List (LossyMove ι)) :
    (t.lossySteps ms).Thinned ∧ ∀ i,
      ((t.lossySteps ms).session i).compiled = (t.session i).compiled ∧
        ((t.lossySteps ms).session i).party = (t.session i).party := by
  induction ms generalizing t with
  | nil => exact ⟨h, fun _ => ⟨rfl, rfl⟩⟩
  | cons m ms ih =>
      obtain ⟨hthinned, hframe⟩ := ih (h.lossyStep m)
      refine ⟨hthinned, fun i => ?_⟩
      have hfirst : ((t.lossyStep m).session i).compiled = (t.session i).compiled ∧
          ((t.lossyStep m).session i).party = (t.session i).party := by
        cases m with
        | move m => exact h.step_frame m i
        | lose => exact ⟨rfl, rfl⟩
      exact ⟨(hframe i).1.trans hfirst.1, (hframe i).2.trans hfirst.2⟩

end Thinned

/-- Agreement across parties with setups of their own.  When a session has started its
engine, every party of its setup has a session, and that one has the same fingerprint.  If no
two setups have one hash for different bytes, and their lengths and wires fit into eight
bytes, it has the same circuit, the same parties in the same order, the same lowered circuit
and the same index for every name. -/
theorem setups_agree {setup : ι → Setup} {compiled : ι → Compiled} {name : ι → String}
    {values : ι → Values} {program : ι → EngineProgram} {faulty : ι → Nat → Option String}
    {session : ι → Session} (hcompile : ∀ i, (setup i).compile = .ok (compiled i))
    (hstart : ∀ i, Session.start (compiled i) (name i) (values i) (program i) (faulty i) =
      .ok (session i))
    (hnames : Function.Injective name) (schedule : List (LossyMove ι)) (i : ι)
    (hcommitted : (((start session).lossySteps schedule).session i).Committed) :
    (∀ p ∈ (setup i).parties, ∃ j, name j = p.name ∧
      (compiled j).fingerprint = (compiled i).fingerprint) ∧
    ((∀ j, (setup j).WordSized) →
      (∀ j k, Blake3.hash (setup j).bytes = Blake3.hash (setup k).bytes →
        (setup j).bytes = (setup k).bytes) →
      ∀ p ∈ (setup i).parties, ∃ j, name j = p.name ∧
        (setup j).circuit = (setup i).circuit ∧ (setup j).parties = (setup i).parties ∧
        (compiled j).lowered = (compiled i).lowered ∧
        ∀ who, (compiled j).partyIndex? who = (compiled i).partyIndex? who) := by
  have hown : ∀ j, (session j).compiled = compiled j ∧ (session j).ownName = name j := fun j =>
    Session.start_frame (hstart j)
  have hdistinct : Function.Injective fun j => (session j).ownName := by
    simpa only [fun j => (hown j).2] using hnames
  obtain ⟨hthinned, hframe⟩ := Thinned.lossySteps
    (start_accounted .slnil hdistinct fun j => ⟨_, _, _, _, _, hstart j⟩) schedule
  generalize (start session).lossySteps schedule = t at *
  have hc : ∀ j, (t.session j).compiled = compiled j := fun j => (hframe j).1.trans (hown j).1
  have hname : ∀ j, (t.session j).ownName = name j := fun j =>
    (Session.ownName_congr (hframe j).1 (hframe j).2).trans (hown j).2
  -- the compiled setups list the parties under distinct names, and have the hashes
  have hsetup : ∀ j, (compiled j).parties = (setup j).parties ∧
      ((compiled j).parties.map Party.name).Nodup ∧
      (compiled j).fingerprint = (setup j).fingerprint := by
    intro j
    obtain ⟨_, _, _, _, _, h⟩ := Setup.compile_eq_ok_iff.mp (hcompile j)
    exact ⟨h.parties, h.parties ▸ h.fits.nodup_names, by rw [h.result]; rfl⟩
  have hagreed : ∀ p ∈ (setup i).parties, ∃ j, name j = p.name ∧
      (compiled j).fingerprint = (compiled i).fingerprint := by
    intro p hp
    rw [← (hsetup i).1, ← hc] at hp
    obtain ⟨j, hj, hsame⟩ :=
      hthinned.exists_agreed (fun k => hc k ▸ (hsetup k).2.1) hcommitted hp
    rw [hc, hc] at hsame
    exact ⟨j, (hname j).symm.trans hj, hsame⟩
  refine ⟨hagreed, fun hsized hcollide p hp => ?_⟩
  obtain ⟨j, hj, hsame⟩ := hagreed p hp
  rw [(hsetup j).2.2, (hsetup i).2.2] at hsame
  have hbytes := hcollide j i (congrArg Fingerprint.bytes hsame)
  have heq : setup j = setup i :=
    (Setup.setupBytes_unambiguous (hsized j) (hsized i) (congrArg (· ++ []) hbytes)).1
  have hcompiled : compiled j = compiled i :=
    Except.ok.inj ((hcompile j).symm.trans (heq ▸ hcompile i))
  exact ⟨j, hj, by rw [heq], by rw [heq], by rw [hcompiled], fun _ => by rw [hcompiled]⟩

end Traffic

/-! ## A message of a session with another setup gets lost -/

namespace Session

/-- A run that goes through puts a greeting to every peer before all else. -/
theorem Standing.run_greets {s : Session} (h : s.Standing) (hgreets : s.Greets) :
    s.greetings <+: sentAmong s.run.deeds.toList := by
  obtain ⟨t, gs, hgreeted, hkeeps, _, _, hrun⟩ := h.run_eq hgreets
  obtain ⟨ds, hds, _⟩ := (runHandshake_keeps gs t).deeds
  rw [hrun, hds, sentAmong_append, hgreeted.sent, greetings_congr hkeeps.compiled hkeeps.party]
  exact List.prefix_append _ _

/-- The first message to the first peer is a greeting. -/
theorem Standing.mailTo_run {s : Session} (h : s.Standing) (hgreets : s.Greets) {q : Nat}
    {qs : List Nat} (hpeers : s.peers = q :: qs) : ∃ ms,
    s.run.mailTo s.run.deeds.toList (s.nameOf q) =
      frame .setup s.compiled.fingerprint.bytes :: ms := by
  obtain ⟨rest, hrest⟩ := h.run_greets hgreets
  rw [mailTo_congr h.run_keeps.compiled, mailTo, ← hrest, greetings, hpeers, List.map_cons,
    List.cons_append, List.filterMap_cons, if_pos rfl]
  exact ⟨_, rfl⟩

theorem startEngine_committed (s : Session) : s.startEngine.Committed := by
  obtain ⟨ds, hds, _⟩ := (drive_acts s.engine
    (((s.advance .handshakeVerified).advance .computing).record .started)).keeps.deeds
  left
  rw [startEngine, hds]
  simp [record]

end Session

namespace Traffic

/-- A setup of two parties, and others that provide and see nothing. -/
def guestSetup (guests : List String) : Setup :=
  { circuit :=
      { text := "1 3\n2 1 1\n1 1\n2 1 0 1 2 OR"
        inputs := .ofList [("a", 0), ("b", 1)]
        outputs := .ofList [("c", 2)] }
    parties := [⟨"alice", ["a"], ["c"]⟩, ⟨"bob", ["b"], ["c"]⟩] ++ guests.map (⟨·, [], []⟩) }

/-- The setups of three sessions.  The third one has a party more. -/
def guestSetups : Fin 3 → Setup := ![guestSetup [], guestSetup [], guestSetup ["carol"]]

def guestNames : Fin 3 → String := !["alice", "bob", "carol"]

def guestValues : Fin 3 → Values :=
  ![.ofList [("a", .int 1)], .ofList [("b", .int 1)], .empty]

/-- The start of a session with the plaintext engine. -/
def startGuest (i : Fin 3) (c : Compiled) : Except SessionError Session :=
  Session.start c (guestNames i) (guestValues i) ⟨2, 9, Plaintext.acts⟩ fun _ => none

/-- The sessions of `bob` and `carol` greet that of `alice`, and the greeting of `carol` gets
lost. -/
def guestSchedule : List (LossyMove (Fin 3)) :=
  [.move (.run 1), .move (.run 2), .lose 2 "alice" 0, .move (.deliver 1 0), .move (.run 0)]

/-- The first session runs with the oldest message of the second session to it. -/
theorem session_guestSchedule {session : Fin 3 → Session} {m : Bytes} {ms : List Bytes}
    (hmail : (session 1).run.mailTo ((session 1).run.deedsSince (session 1).deeds.size)
      (session 0).ownName = m :: ms) :
    ((start session).lossySteps guestSchedule).session 0 =
      ((session 0).step (.message (session 1).run.ownName m)).2.run := by
  simp [guestSchedule, lossySteps, lossyStep, Traffic.step, Traffic.deliver, Traffic.run, start,
    hmail]

/-- The sessions of `alice` and `bob` start with nothing done. -/
theorem startGuest_pair {i : Fin 3} {c : Compiled} {s : Session}
    (hparties : c.parties = (guestSetup []).parties) (hi : i ≠ 2) (hs : startGuest i c = .ok s) :
    s.compiled = c ∧ s.party = i ∧ s.Greets ∧ s.deeds = #[] ∧ s.dropped = false := by
  obtain ⟨party, _, hparty, _, rfl⟩ := Session.start_eq_ok hs
  have hindex : ∀ j : Fin 3, j ≠ 2 →
      partyIndex? (guestSetup []).parties (guestNames j) = some j.val := by decide
  rw [Compiled.partyIndex?, hparties, hindex i hi] at hparty
  obtain rfl := Option.some.inj hparty
  exact ⟨rfl, rfl, ⟨rfl, .inr ⟨rfl, fun _ _ => rfl⟩⟩, rfl, rfl⟩

/-- The session of `alice` starts its engine after the greeting of that of `bob`. -/
theorem guestSchedule_committed {c : Compiled} {session : Fin 3 → Session}
    (hparties : c.parties = (guestSetup []).parties) (halice : startGuest 0 c = .ok (session 0))
    (hbob : startGuest 1 c = .ok (session 1)) :
    (((start session).lossySteps guestSchedule).session 0).Committed := by
  have hstanding := Session.start_standing halice
  have hstanding' := Session.start_standing hbob
  obtain ⟨hc, hparty, hgreets, _, hheld⟩ := startGuest_pair hparties (by decide) halice
  obtain ⟨hc', hparty', hgreets', hdeeds', _⟩ := startGuest_pair hparties (by decide) hbob
  have hname' : (session 1).run.ownName = "bob" :=
    (Session.ownName_congr hstanding'.run_keeps.compiled hstanding'.run_keeps.party).trans
      (Session.start_frame hbob).2
  -- `bob` has `alice` for his first peer
  have hpeers' : (session 1).peers = [0] := by
    rw [Session.peers, hc', hparties, hparty']
    rfl
  obtain ⟨ms, hmail⟩ := hstanding'.mailTo_run hgreets' hpeers'
  have hname : (session 1).nameOf 0 = (session 0).ownName := by
    rw [(Session.start_frame halice).2, Session.nameOf, Session.names, hc', hparties]
    rfl
  rw [hname, hc'] at hmail
  have hmail' : (session 1).run.mailTo ((session 1).run.deedsSince (session 1).deeds.size)
      (session 0).ownName = Session.frame .setup c.fingerprint.bytes :: ms := by
    rw [hdeeds']
    exact hmail
  rw [session_guestSchedule hmail', hname']
  have hpeer : (session 0).peerNamed? "bob" = some 1 := by
    rw [Session.peerNamed?, Compiled.partyIndex?, hc, hparties, hparty]
    rfl
  have hpeers : (session 0).peers = [1] := by
    rw [Session.peers, hc, hparties, hparty]
    rfl
  obtain ⟨t, _, _, _, _, hrun⟩ := hstanding.run_greeted hgreets hheld hpeers hpeer
    (Session.inbox_steps halice [] 1 .setup)
  rw [hc] at hrun
  rw [hrun]
  exact t.startEngine_committed

theorem setups_agree_guests : ∃ (compiled : Fin 3 → Compiled) (session : Fin 3 → Session),
    (∀ i, (guestSetups i).compile = .ok (compiled i)) ∧
    (∀ i, startGuest i (compiled i) = .ok (session i)) ∧
    (((start session).lossySteps guestSchedule).session 0).Committed ∧
    ∀ p ∈ (guestSetup []).parties, ∃ j, guestNames j = p.name ∧
      (guestSetups j).circuit = (guestSetup []).circuit ∧
      (guestSetups j).parties = (guestSetup []).parties := by
  have hstarts : ∀ i, ((guestSetups i).compile.toOption.any fun c =>
      decide ((startGuest i c).isOk = true)) = true := by
    decide +kernel
  choose compiled hcompile hok using fun i => exists_ok_and_of_any (hstarts i)
  choose session hstart using fun i => exists_ok_of_isOk (hok i)
  refine ⟨compiled, session, hcompile, hstart, ?_⟩
  have hcommitted : (((start session).lossySteps guestSchedule).session 0).Committed := by
    obtain ⟨_, _, _, _, _, h⟩ := Setup.compile_eq_ok_iff.mp (hcompile 0)
    have hsame : compiled 1 = compiled 0 := Except.ok.inj ((hcompile 1).symm.trans (hcompile 0))
    exact guestSchedule_committed h.parties (hstart 0) (hsame ▸ hstart 1)
  have hdistinct : Function.Injective guestNames :=
    fun i j => (by decide : ∀ i j, guestNames i = guestNames j → i = j) i j
  have hsized : ∀ j, (guestSetups j).WordSized := by decide
  have hhash : Blake3.hash (guestSetup []).bytes ≠ Blake3.hash (guestSetup ["carol"]).bytes := by
    decide +kernel
  have hcollide : ∀ j k, Blake3.hash (guestSetups j).bytes = Blake3.hash (guestSetups k).bytes →
      (guestSetups j).bytes = (guestSetups k).bytes := by
    have hcases : ∀ j, guestSetups j = guestSetup [] ∨ guestSetups j = guestSetup ["carol"]
      | 0 => .inl rfl
      | 1 => .inl rfl
      | 2 => .inr rfl
    intro j k h
    rcases hcases j with hj | hj <;> rcases hcases k with hk | hk <;> rw [hj, hk] at h ⊢
    · exact absurd h hhash
    · exact absurd h.symm hhash
  refine ⟨hcommitted, fun p hp => ?_⟩
  obtain ⟨j, hj, hcircuit, hsame, _⟩ := (setups_agree hcompile hstart hdistinct guestSchedule 0
    hcommitted).2 hsized hcollide p hp
  exact ⟨j, hj, hcircuit, hsame⟩

end Traffic

end JointCircuit

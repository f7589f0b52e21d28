import JointCircuit.Proofs.Compiled.Stages
import JointCircuit.Proofs.Session.Agreement

/-!
# When another fingerprint is noticed

A session with at most `eagerLimit` parties that waits in its handshake has not got
another fingerprint from any peer.  With more parties it may have one and wait all the
same.  `Session.hidden_mismatch_iff` says exactly when: there is a peer whose fingerprint
has not come, all peers before it match, and one behind it sent another fingerprint.
-/

namespace JointCircuit

theorem Fingerprint.not_rejects_of_front {f : Fingerprint} {bytes : Bytes}
    (h : f.bytes <+: bytes) : ¬ f.Rejects bytes := by
  rintro ⟨_, hne⟩
  rw [← f.size_eq] at hne
  exact hne (List.prefix_iff_eq_take.mp h).symm

/-- Bytes that all differ from those of a fingerprint are rejected. -/
theorem Fingerprint.rejects_map_add_one (f : Fingerprint) : f.Rejects (f.bytes.map (· + 1)) := by
  have hsize := f.size_eq
  refine ⟨by simp [hsize], ?_⟩
  rw [List.take_of_length_le (by simp [hsize])]
  intro heq
  cases hbytes : f.bytes with
  | nil => rw [hbytes] at hsize; cases hsize
  | cons b bytes =>
      rw [hbytes, List.map_cons] at heq
      have hhead := (List.cons.inj heq).1
      simp at hhead

/-- Where a handshake waits for all peers before a mismatch, it is unfinished when the first
peer that does not match has not answered. -/
theorem patientHandshake_eq_unfinished {gs : List Greeting} :
    patientHandshake gs = .unfinished ↔ ∃ before g after, gs = before ++ g :: after ∧
      (∀ b ∈ before, b.verdict = some true) ∧ g.verdict = none := by
  induction gs with
  | nil =>
      refine ⟨by simp [patientHandshake], ?_⟩
      rintro ⟨before, g, after, hsplit, _⟩
      cases before <;> cases hsplit
  | cons q gs ih =>
      rw [patientHandshake]
      split
      · rename_i hverdict
        refine ⟨fun _ => ⟨[], q, gs, rfl, fun _ hb => absurd hb List.not_mem_nil, hverdict⟩,
          fun _ => rfl⟩
      · rename_i hverdict
        refine ⟨by simp, ?_⟩
        rintro ⟨before, g, after, hsplit, hbefore, hg⟩
        cases before with
        | nil =>
            cases hsplit
            cases hverdict.symm.trans hg
        | cons b before =>
            cases hsplit
            cases hverdict.symm.trans (hbefore q List.mem_cons_self)
      · rename_i hverdict
        rw [ih]
        constructor
        · rintro ⟨before, g, after, rfl, hbefore, hg⟩
          exact ⟨q :: before, g, after, rfl, List.forall_mem_cons.mpr ⟨hverdict, hbefore⟩, hg⟩
        · rintro ⟨before, g, after, hsplit, hbefore, hg⟩
          cases before with
          | nil =>
              cases hsplit
              cases hverdict.symm.trans hg
          | cons b before =>
              cases hsplit
              exact ⟨before, g, after, rfl, (List.forall_mem_cons.mp hbefore).2, hg⟩

theorem not_differs_of_unfinished {gs : List Greeting} (h : eagerHandshake gs = .unfinished) :
    ∀ g ∈ gs, ¬ g.differs = true := by
  rw [eagerHandshake] at h
  split at h
  · cases h
  · rename_i hfind
    exact List.find?_eq_none.mp hfind

namespace Session

/-- The session is in its handshake and has no result. -/
def InHandshake (s : Session) : Prop :=
  (s.stage = .created ∨ s.stage = .handshakeSent) ∧ s.result = none

/-- Some greeting of an unfinished handshake is open. -/
theorem exists_open {s : Session} {gs : List Greeting} (h : s.handshake gs = .unfinished) :
    ∃ g ∈ gs, g.isOpen = true := by
  rw [handshake] at h
  split at h
  · rw [eagerHandshake] at h
    split at h
    · cases h
    · split at h
      · rename_i hany
        exact List.any_eq_true.mp hany
      · cases h
  · obtain ⟨before, g, after, rfl, _, hverdict⟩ := patientHandshake_eq_unfinished.mp h
    exact ⟨g, List.mem_append_right _ List.mem_cons_self, by simp [Greeting.isOpen, hverdict]⟩

/-- An eager session that stopped collecting at a mismatch does not wait. -/
theorem collect_not_stopped {s t : Session} {gs gs' : List Greeting}
    (hcollect : collect gs s = (gs', t)) (h : t.handshake gs' = .unfinished) :
    ¬ (s.isEager = true ∧ ∃ g ∈ gs', g.differs = true) := by
  rintro ⟨heager, g, hg, hdiffers⟩
  have hcompiled : t.compiled = s.compiled := by
    have hcollected := (collect_collected gs s).compiled
    rwa [hcollect] at hcollected
  have hside : t.isEager = true := by
    rw [isEager, hcompiled]
    exact heager
  rw [handshake, if_pos hside] at h
  exact not_differs_of_unfinished h g hg hdiffers

/-- When a handshake is unfinished after collecting, the fingerprints that are open are not
there. -/
theorem collect_unfinished {s : Session} {gs : List Greeting}
    (hnodup : (gs.map Greeting.peer).Nodup)
    (h : (collect gs s).2.handshake (collect gs s).1 = .unfinished) :
    ∀ g ∈ (collect gs s).1, g.isOpen = true →
      ((collect gs s).2.mailbox.queue g.peer .setup).length < fingerprintSize :=
  (collect_left s hnodup).resolve_left (collect_not_stopped rfl h)

theorem Engaged.not_inHandshake {s : Session} (h : s.Engaged) : ¬ s.InHandshake := by
  rintro ⟨hstage, _⟩
  rcases h.stage with hrun | hfinal
  · rcases hstage with hstage | hstage <;> rw [hstage] at hrun <;> cases hrun
  · rcases hstage with hstage | hstage <;> rw [hstage] at hfinal <;> cases hfinal

theorem pairwise_peers (s : Session) : s.peers.Pairwise (· < ·) :=
  List.pairwise_lt_range.filter _

/-! ## What the greetings say -/

/-- After collecting, an open greeting means that the fingerprint has not come. -/
theorem Greeted.verdict {s : Session} {gs : List Greeting} (h : s.Greeted gs)
    (hleft : ∀ g ∈ gs, g.isOpen = true →
      (s.mailbox.queue g.peer .setup).length < fingerprintSize) {g : Greeting} (hg : g ∈ gs) :
    (g.verdict = none ∧ (s.inbox g.peer .setup).length < fingerprintSize) ∨
    (g.verdict = some true ∧ s.compiled.fingerprint.bytes <+: s.inbox g.peer .setup) ∨
    (g.verdict = some false ∧ s.compiled.fingerprint.Rejects (s.inbox g.peer .setup)) := by
  have hhears := h.hears g hg
  cases hverdict : g.verdict with
  | none =>
      have hqueue := hleft g hg (by simp [Greeting.isOpen, hverdict])
      rw [Hears, hverdict] at hhears
      rw [inbox, hhears, List.nil_append]
      exact .inl ⟨rfl, hqueue⟩
  | some matching =>
      cases matching with
      | true => exact .inr (.inl ⟨rfl, hhears.agreed hverdict⟩)
      | false => exact .inr (.inr ⟨rfl, hhears.rejected hverdict⟩)

theorem Greeted.verdict_eq_none {s : Session} {gs : List Greeting} (h : s.Greeted gs)
    (hleft : ∀ g ∈ gs, g.isOpen = true →
      (s.mailbox.queue g.peer .setup).length < fingerprintSize) {g : Greeting} (hg : g ∈ gs) :
    g.verdict = none ↔ (s.inbox g.peer .setup).length < fingerprintSize := by
  rcases h.verdict hleft hg with ⟨hverdict, hshort⟩ | ⟨hverdict, hfront⟩ | ⟨hverdict, hrejects⟩
  · exact iff_of_true hverdict hshort
  · refine iff_of_false (by simp [hverdict]) (Nat.not_lt.mpr ?_)
    rw [← s.compiled.fingerprint.size_eq]
    exact hfront.length_le
  · exact iff_of_false (by simp [hverdict]) (Nat.not_lt.mpr hrejects.1)

theorem Greeted.verdict_eq_true {s : Session} {gs : List Greeting} (h : s.Greeted gs)
    (hleft : ∀ g ∈ gs, g.isOpen = true →
      (s.mailbox.queue g.peer .setup).length < fingerprintSize) {g : Greeting} (hg : g ∈ gs) :
    g.verdict = some true ↔ s.compiled.fingerprint.bytes <+: s.inbox g.peer .setup := by
  rcases h.verdict hleft hg with ⟨hverdict, hshort⟩ | ⟨hverdict, hfront⟩ | ⟨hverdict, hrejects⟩
  · refine iff_of_false (by simp [hverdict]) fun hfront => ?_
    have hlen := hfront.length_le
    rw [s.compiled.fingerprint.size_eq] at hlen
    exact absurd hshort (Nat.not_lt.mpr hlen)
  · exact iff_of_true hverdict hfront
  · refine iff_of_false (by simp [hverdict]) fun hfront => ?_
    exact Fingerprint.not_rejects_of_front hfront hrejects

/-! ## Waiting in the handshake -/

/-- A handshake goes on when it is unfinished after collecting. -/
theorem Greeted.inHandshake_iff {s : Session} {gs : List Greeting} (h : s.Greeted gs)
    (hworker : ∀ ws next, s.worker ≠ .waiting ws next) :
    (s.runHandshake gs).InHandshake ↔
      (collect gs s).2.handshake (collect gs s).1 = .unfinished := by
  have hcollected := collect_collected gs s
  have hgreeted := h.collected hcollected
  obtain ⟨_, _, hframe, _⟩ := hcollected.frame
  rw [Session.runHandshake]
  simp only
  cases hstand : (collect gs s).2.handshake (collect gs s).1 with
  | matched =>
      have hstart := hgreeted.start (handshake_matched hstand) fun ws next => by
        rw [hframe]
        exact hworker ws next
      exact iff_of_false (hstart.acts (drive_acts _ _)).not_inHandshake (by simp)
  | unfinished => exact iff_of_true ⟨.inr hgreeted.stage, hgreeted.result⟩ rfl
  | mismatch peer =>
      refine iff_of_false ?_ (by simp)
      rintro ⟨_, hresult⟩
      simp only [conclude_eq] at hresult
      cases hresult

/-- A patient handshake waits for a peer all of whose predecessors match. -/
theorem Greeted.patient_iff {s : Session} {gs : List Greeting} (h : s.Greeted gs)
    (hleft : ∀ g ∈ gs, g.isOpen = true →
      (s.mailbox.queue g.peer .setup).length < fingerprintSize) :
    patientHandshake gs = .unfinished ↔
      ∃ p ∈ s.peers, (s.inbox p .setup).length < fingerprintSize ∧
        ∀ q ∈ s.peers, q < p → s.compiled.fingerprint.bytes <+: s.inbox q .setup := by
  have hsorted := s.pairwise_peers
  rw [patientHandshake_eq_unfinished]
  constructor
  · rintro ⟨before, g, after, rfl, hbefore, hopen⟩
    have hg : g ∈ before ++ g :: after := List.mem_append_right _ List.mem_cons_self
    have hpeers := h.peers
    rw [List.map_append, List.map_cons] at hpeers
    refine ⟨g.peer, hpeers ▸ List.mem_append_right _ List.mem_cons_self,
      (h.verdict_eq_none hleft hg).mp hopen, fun q hq hlt => ?_⟩
    rw [← hpeers] at hq hsorted
    rcases List.mem_append.mp hq with hq | hq
    · obtain ⟨b, hb, rfl⟩ := List.mem_map.mp hq
      exact (h.verdict_eq_true hleft (List.mem_append_left _ hb)).mp (hbefore b hb)
    · -- the peers behind `g` have greater indices
      have hbehind := (List.pairwise_cons.mp (List.pairwise_append.mp hsorted).2.1).1
      rcases List.mem_cons.mp hq with rfl | hq
      · exact absurd hlt (Nat.lt_irrefl _)
      · exact absurd hlt (Nat.lt_asymm (hbehind q hq))
  · rintro ⟨p, hp, hshort, hmatch⟩
    rw [← h.peers] at hp
    obtain ⟨g, hg, rfl⟩ := List.mem_map.mp hp
    obtain ⟨before, after, rfl⟩ := List.append_of_mem hg
    refine ⟨before, g, after, rfl, fun b hb => ?_, (h.verdict_eq_none hleft hg).mpr hshort⟩
    have hmem : b ∈ before ++ g :: after := List.mem_append_left _ hb
    rw [← h.peers, List.map_append, List.map_cons] at hsorted
    have hlt := (List.pairwise_append.mp hsorted).2.2 _ (List.mem_map_of_mem hb) _
      List.mem_cons_self
    refine (h.verdict_eq_true hleft hmem).mpr (hmatch b.peer ?_ hlt)
    rw [← h.peers]
    exact List.mem_map_of_mem hmem

/-- An eager handshake that waits has no mismatch. -/
theorem Greeted.eager {s : Session} {gs : List Greeting} (h : s.Greeted gs)
    (hleft : ∀ g ∈ gs, g.isOpen = true →
      (s.mailbox.queue g.peer .setup).length < fingerprintSize)
    (hunfinished : eagerHandshake gs = .unfinished) :
    ∀ q ∈ s.peers, ¬ s.compiled.fingerprint.Rejects (s.inbox q .setup) := by
  intro q hq
  rw [← h.peers] at hq
  obtain ⟨g, hg, rfl⟩ := List.mem_map.mp hq
  have hdiffers := not_differs_of_unfinished hunfinished g hg
  rcases h.verdict hleft hg with ⟨_, hshort⟩ | ⟨_, hfront⟩ | ⟨hverdict, _⟩
  · exact fun hrejects => absurd hshort (Nat.not_lt.mpr hrejects.1)
  · exact Fingerprint.not_rejects_of_front hfront
  · exact absurd (by simp [Greeting.differs, hverdict]) hdiffers

/-- A run of the handshake leaves a mismatch unnoticed exactly when there are more than
`eagerLimit` parties and the first peer that has not answered stands before it. -/
theorem Greeted.hidden_iff {s : Session} {gs : List Greeting} (h : s.Greeted gs)
    (hworker : ∀ ws next, s.worker ≠ .waiting ws next) :
    ((s.runHandshake gs).InHandshake ∧
        ∃ q ∈ s.peers, s.compiled.fingerprint.Rejects (s.inbox q .setup)) ↔
      eagerLimit < s.compiled.parties.length ∧
        ∃ p ∈ s.peers, (s.inbox p .setup).length < fingerprintSize ∧
          (∀ q ∈ s.peers, q < p → s.compiled.fingerprint.bytes <+: s.inbox q .setup) ∧
          ∃ q ∈ s.peers, p < q ∧ s.compiled.fingerprint.Rejects (s.inbox q .setup) := by
  have hcollected := collect_collected gs s
  have hgreeted := h.collected hcollected
  have hkeeps := hcollected.keeps
  have hpeers := peers_congr hkeeps.compiled hkeeps.party
  have hside : (collect gs s).2.isEager = s.isEager := by
    rw [isEager, hkeeps.compiled, isEager]
  rw [h.inHandshake_iff hworker, handshake, hside]
  simp only [← hkeeps.inbox, ← hkeeps.compiled, ← hpeers]
  rcases collect_left s (h.peers ▸ s.nodup_peers) with ⟨heager, g, hg, hdiffers⟩ | hleft
  · -- an eager session stopped at a mismatch
    have hlimit : s.compiled.parties.length ≤ eagerLimit := of_decide_eq_true heager
    rw [if_pos heager, hkeeps.compiled]
    refine iff_of_false ?_ fun hmany => absurd hmany.1 (Nat.not_lt.mpr hlimit)
    rintro ⟨hunfinished, _⟩
    exact not_differs_of_unfinished hunfinished g hg hdiffers
  · by_cases heager : s.isEager = true
    · have hlimit : s.compiled.parties.length ≤ eagerLimit := of_decide_eq_true heager
      rw [if_pos heager]
      refine iff_of_false ?_ fun hmany => ?_
      · rintro ⟨hunfinished, q, hq, hrejects⟩
        exact hgreeted.eager hleft hunfinished q hq hrejects
      · rw [hkeeps.compiled] at hmany
        exact absurd hmany.1 (Nat.not_lt.mpr hlimit)
    · have hlimit : eagerLimit < s.compiled.parties.length := by
        rw [isEager, decide_eq_true_iff] at heager
        omega
      rw [if_neg heager, hgreeted.patient_iff hleft]
      constructor
      · rintro ⟨⟨p, hp, hshort, hmatch⟩, q, hq, hrejects⟩
        refine ⟨hkeeps.compiled ▸ hlimit, p, hp, hshort, hmatch, q, hq, ?_, hrejects⟩
        rcases Nat.lt_trichotomy p q with hlt | rfl | hgt
        · exact hlt
        · exact absurd hshort (Nat.not_lt.mpr hrejects.1)
        · exact absurd hrejects (Fingerprint.not_rejects_of_front (hmatch q hq hgt))
      · rintro ⟨_, p, hp, hshort, hmatch, q, hq, _, hrejects⟩
        exact ⟨⟨p, hp, hshort, hmatch⟩, q, hq, hrejects⟩

/-- A mismatch that does not stay hidden ends the session, which blames a peer for it. -/
theorem Greeted.noticed {s : Session} {gs : List Greeting} (h : s.Greeted gs)
    (hworker : ∀ ws next, s.worker ≠ .waiting ws next)
    (hrejects : ∃ q ∈ s.peers, s.compiled.fingerprint.Rejects (s.inbox q .setup))
    (hover : ¬ (s.runHandshake gs).InHandshake) :
    ∃ q ∈ s.peers, s.compiled.fingerprint.Rejects (s.inbox q .setup) ∧
      (s.runHandshake gs).result = some (.error (.setupMismatch (s.nameOf q))) := by
  have hcollected := collect_collected gs s
  have hgreeted := h.collected hcollected
  have hkeeps := hcollected.keeps
  rw [h.inHandshake_iff hworker] at hover
  simp only [← hkeeps.inbox, ← hkeeps.compiled,
    ← peers_congr hkeeps.compiled hkeeps.party] at hrejects ⊢
  rw [Session.runHandshake]
  simp only
  cases hstand : (collect gs s).2.handshake (collect gs s).1 with
  | matched =>
      obtain ⟨q, hq, hrejects⟩ := hrejects
      rw [← hgreeted.peers] at hq
      obtain ⟨g, hg, rfl⟩ := List.mem_map.mp hq
      have hfront := (hgreeted.hears g hg).agreed (handshake_matched hstand g hg)
      exact absurd hrejects (Fingerprint.not_rejects_of_front hfront)
  | unfinished => exact absurd hstand hover
  | mismatch peer =>
      obtain ⟨g, hg, rfl, hverdict⟩ := handshake_mismatch hstand
      refine ⟨g.peer, hgreeted.peers ▸ List.mem_map_of_mem hg,
        (hgreeted.hears g hg).rejected hverdict, ?_⟩
      simp only [conclude_eq, hgreeted.result, Option.getD_none, nameOf, names, hkeeps.compiled]

/-- A run of the session does not fail to greet its peers: it has greeted them, or no
attempt breaks down. -/
def Greets (s : Session) : Prop :=
  s.result = none ∧ (s.stage = .handshakeSent ∨
    s.stage = .created ∧ ∀ k < s.peers.length, s.faulty k = none)

/-- The run of a session that greets its peers is a run of the handshake. -/
theorem Standing.run_eq {s : Session} (h : s.Standing) (hgreets : s.Greets) :
    ∃ t gs, Greeted t gs ∧ s.Keeps t ∧ t.engine = s.engine ∧
      (∀ ws next, t.worker ≠ .waiting ws next) ∧ s.run = t.runHandshake gs := by
  cases h with
  | fresh worker stage result kept attempts deeds =>
      have hthrough : (greet s.peers s).2 = true := by
        rw [greet_through, attempts]
        rcases hgreets.2 with hsent | ⟨_, hfaulty⟩
        · cases stage.symm.trans hsent
        · simpa using hfaulty
      obtain ⟨done, attempts, _, heq, hall⟩ := greet_eq s.peers s
      obtain rfl := hall hthrough
      have hgreet := s.greet_keeps
      rw [heq] at hgreet
      refine ⟨_, _, greeted_all stage result kept deeds attempts,
        hgreet.trans (advance_keeps _ _), ?_, fun ws next hw => ?_, ?_⟩
      · rw [advance]
        split <;> rfl
      · rw [worker_advance] at hw
        cases worker.symm.trans hw
      · have hpair : greet s.peers s = (_, true) := Prod.ext heq hthrough
        simp only [Session.run, worker, hpair]
        rfl
  | greeted worker h =>
      refine ⟨s, _, h, .refl s, rfl, fun ws next hw => ?_, ?_⟩
      · cases worker.symm.trans hw
      · rw [Session.run, worker]
  | barred h =>
      rcases hgreets.2 with hstage | ⟨hstage, _⟩ <;>
        cases h.stage.symm.trans hstage
  | engaged h rest =>
      refine absurd ⟨?_, hgreets.1⟩ h.not_inHandshake
      exact hgreets.2.elim .inr fun hcreated => .inl hcreated.1

/-- A session that waits in its handshake after a run has greeted its peers. -/
theorem Standing.greets_of_run {s : Session} (h : s.Standing) (hin : s.run.InHandshake) :
    s.Greets := by
  cases h with
  | fresh worker stage result kept attempts deeds =>
      refine ⟨result, .inr ⟨stage, ?_⟩⟩
      have hthrough := greet_through s.peers s
      simp only [attempts, Nat.zero_add] at hthrough
      rw [← hthrough]
      rw [Session.run, worker] at hin
      simp only at hin
      generalize greet s.peers s = greeted at hin ⊢
      obtain ⟨t, through⟩ := greeted
      cases through with
      | true => rfl
      | false =>
          obtain ⟨_, hresult⟩ := hin
          simp only [conclude_eq] at hresult
          cases hresult
  | greeted worker h => exact ⟨h.result, .inl h.stage⟩
  | barred h =>
      rw [Session.run, h.worker] at hin
      rcases hin.1 with hstage | hstage <;> cases h.stage.symm.trans hstage
  | engaged h rest => exact absurd hin (h.run rest).1.not_inHandshake

theorem Standing.hidden_iff {s : Session} (h : s.Standing) :
    (s.run.InHandshake ∧
        ∃ q ∈ s.peers, s.compiled.fingerprint.Rejects (s.inbox q .setup)) ↔
      s.Greets ∧ eagerLimit < s.compiled.parties.length ∧
        ∃ p ∈ s.peers, (s.inbox p .setup).length < fingerprintSize ∧
          (∀ q ∈ s.peers, q < p → s.compiled.fingerprint.bytes <+: s.inbox q .setup) ∧
          ∃ q ∈ s.peers, p < q ∧ s.compiled.fingerprint.Rejects (s.inbox q .setup) := by
  by_cases hgreets : s.Greets
  · obtain ⟨t, gs, hgreeted, hkeeps, _, hworker, heq⟩ := h.run_eq hgreets
    have hiff := hgreeted.hidden_iff hworker
    simp only [← heq, hkeeps.compiled, hkeeps.inbox,
      peers_congr hkeeps.compiled hkeeps.party] at hiff
    rw [hiff]
    exact (and_iff_right hgreets).symm
  · exact iff_of_false (fun hhidden => hgreets (h.greets_of_run hhidden.1)) fun hcondition =>
      hgreets hcondition.1

theorem Standing.noticed {s : Session} (h : s.Standing) (hgreets : s.Greets)
    (hover : ¬ s.run.InHandshake)
    (hrejects : ∃ q ∈ s.peers, s.compiled.fingerprint.Rejects (s.inbox q .setup)) :
    ∃ q ∈ s.peers, s.compiled.fingerprint.Rejects (s.inbox q .setup) ∧
      s.run.result = some (.error (.setupMismatch (s.nameOf q))) := by
  obtain ⟨t, gs, hgreeted, hkeeps, _, hworker, heq⟩ := h.run_eq hgreets
  have hnoticed := hgreeted.noticed hworker
  simp only [← heq, hkeeps.compiled, hkeeps.inbox, peers_congr hkeeps.compiled hkeeps.party,
    nameOf, names] at hnoticed
  exact hnoticed hrejects hover

/-- What is in the inboxes is what was received along the events. -/
theorem hidden_iff_received {c : Compiled} {name : String} {values : Values}
    {program : EngineProgram} {faulty : Nat → Option String} {s : Session}
    (h : start c name values program faulty = .ok s) (es : List Event) :
    ((s.steps es).run.InHandshake ∧
        ∃ q ∈ s.peers, c.fingerprint.Rejects (s.received es q .setup)) ↔
      (s.steps es).Greets ∧ eagerLimit < c.parties.length ∧
        ∃ p ∈ s.peers, (s.received es p .setup).length < fingerprintSize ∧
          (∀ q ∈ s.peers, q < p → c.fingerprint.bytes <+: s.received es q .setup) ∧
          ∃ q ∈ s.peers, p < q ∧ c.fingerprint.Rejects (s.received es q .setup) := by
  have hiff := ((start_standing h).steps es).hidden_iff
  obtain ⟨hc, hp, _⟩ := (start_standing h).steps_frame es
  have hcompiled : s.compiled = c := by
    obtain ⟨_, _, _, _, rfl⟩ := start_eq_ok h
    rfl
  simpa only [hc, hcompiled, peers_congr hc hp, inbox_steps h] using hiff

/-- When a session waits in its handshake although another fingerprint has come: there are
more than `eagerLimit` parties, the fingerprint of some peer has not come, the peers before
it match, and a peer behind it sent another fingerprint.  Otherwise another fingerprint ends
the session at the next run of its worker. -/
theorem hidden_mismatch_iff {c : Compiled} {name : String} {values : Values}
    {program : EngineProgram} {faulty : Nat → Option String} {s : Session}
    (h : start c name values program faulty = .ok s) (es : List Event) :
    (((s.steps es).run.InHandshake ∧
        ∃ q ∈ s.peers, c.fingerprint.Rejects (s.received es q .setup)) ↔
      (s.steps es).Greets ∧ eagerLimit < c.parties.length ∧
        ∃ p ∈ s.peers, (s.received es p .setup).length < fingerprintSize ∧
          (∀ q ∈ s.peers, q < p → c.fingerprint.bytes <+: s.received es q .setup) ∧
          ∃ q ∈ s.peers, p < q ∧ c.fingerprint.Rejects (s.received es q .setup)) ∧
    ((s.steps es).Greets → ¬ (s.steps es).run.InHandshake →
      (∃ q ∈ s.peers, c.fingerprint.Rejects (s.received es q .setup)) →
      ∃ q ∈ s.peers, c.fingerprint.Rejects (s.received es q .setup) ∧
        (s.steps es).run.result = some (.error (.setupMismatch (s.nameOf q)))) := by
  have hstanding := (start_standing h).steps es
  obtain ⟨hc, hp, _⟩ := (start_standing h).steps_frame es
  have hcompiled : s.compiled = c := by
    obtain ⟨_, _, _, _, rfl⟩ := start_eq_ok h
    rfl
  have hnoticed := hstanding.noticed
  simp only [hc, hcompiled, peers_congr hc hp, inbox_steps h, nameOf, names] at hnoticed
  simp only [nameOf, names, hcompiled]
  exact ⟨hidden_iff_received h es, hnoticed⟩

/-! ## One party more than the limit -/

/-- A setup of 31 parties, of which the first two have an input. -/
def crowdSetup : Setup :=
  { circuit :=
      { text := "1 3\n2 1 1\n1 1\n2 1 0 1 2 AND"
        inputs := .ofList [("a", 0), ("b", 1)]
        outputs := .ofList [("c", 2)] }
    parties := ⟨"p", ["a"], ["c"]⟩ :: ⟨"pp", ["b"], []⟩ ::
      (List.range' 3 29).map fun i => ⟨String.ofList (List.replicate i 'p'), [], []⟩ }

/-- The third party sends bytes that all differ from those of the fingerprint, and the second
one sends nothing. -/
def crowdEvents (c : Compiled) : List Event :=
  [.message "ppp" (0 :: c.fingerprint.bytes.map (· + 1))]

/-- The first of 31 parties has got nothing of the second one and another fingerprint of the
third one. -/
theorem crowd_hidden : ∃ (c : Compiled) (s : Session), crowdSetup.compile = .ok c ∧
    start c "p" (.ofList [("a", .int 1)]) ⟨2, 99, Plaintext.acts⟩ (fun _ => none) = .ok s ∧
    (s.steps (crowdEvents c)).Greets ∧ eagerLimit < c.parties.length ∧
    ∃ p ∈ s.peers, (s.received (crowdEvents c) p .setup).length < fingerprintSize ∧
      (∀ q ∈ s.peers, q < p → c.fingerprint.bytes <+: s.received (crowdEvents c) q .setup) ∧
      ∃ q ∈ s.peers, p < q ∧ c.fingerprint.Rejects (s.received (crowdEvents c) q .setup) := by
  obtain ⟨c, hc⟩ := exists_ok_of_isOk (x := crowdSetup.compile) (by decide +kernel)
  obtain ⟨n, ins, outs, p, w, h⟩ := Setup.compile_eq_ok_iff.mp hc
  have hparse : Netlist.parse crowdSetup.circuit.text =
      .ok ⟨3, [1, 1], [1], [⟨4, .binary .and 0 1 2⟩], ⟨1, 2, 3⟩⟩ := by decide +kernel
  have hins : Slot.Ranked crowdSetup.circuit.inputs [1, 1] [⟨"a", 0, 1⟩, ⟨"b", 1, 1⟩] :=
    Slot.ofTable_eq_ok_iff.mp (rfl : Slot.ofTable .input _ _ = .ok _)
  obtain rfl := Except.ok.inj (hparse.symm.trans h.parse)
  obtain rfl := hins.unique h.inputs
  obtain rfl := h.result
  have hone : 1 ∈ otherParties 31 0 := by decide
  have htwo : 2 ∈ otherParties 31 0 := by decide
  have hnone : ∀ q ∈ otherParties 31 0, ¬ q < 1 := by decide
  refine ⟨_, _, hc, rfl, ⟨rfl, .inr ⟨rfl, fun _ _ => rfl⟩⟩, (by decide : 30 < 31), 1, hone,
    (by decide : 0 < 32), fun q hq hlt => ?_, 2, htwo, by decide,
    Fingerprint.rejects_map_add_one _⟩
  exact absurd hlt (hnone q hq)

/-- The first of 31 parties waits in its handshake with another fingerprint in its inbox. -/
theorem hidden_mismatch_crowd : ∃ (c : Compiled) (s : Session), crowdSetup.compile = .ok c ∧
    start c "p" (.ofList [("a", .int 1)]) ⟨2, 99, Plaintext.acts⟩ (fun _ => none) = .ok s ∧
    (s.steps (crowdEvents c)).run.InHandshake ∧
    ∃ q ∈ s.peers, c.fingerprint.Rejects (s.received (crowdEvents c) q .setup) := by
  obtain ⟨c, s, hc, hstart, hcondition⟩ := crowd_hidden
  exact ⟨c, s, hc, hstart, (hidden_iff_received hstart (crowdEvents c)).mpr hcondition⟩

theorem hidden_mismatch_iff_crowd : ∃ (c : Compiled) (s : Session),
    crowdSetup.compile = .ok c ∧
    start c "p" (.ofList [("a", .int 1)]) ⟨2, 99, Plaintext.acts⟩ (fun _ => none) = .ok s ∧
    (s.steps (crowdEvents c)).run.InHandshake := by
  obtain ⟨c, s, hc, hstart, hcondition⟩ := crowd_hidden
  exact ⟨c, s, hc, hstart, ((hidden_mismatch_iff hstart (crowdEvents c)).1.mpr hcondition).1⟩

end Session

end JointCircuit

import JointCircuit.Proofs.Plaintext.Position

/-!
# Runs between positions

The worker of a plaintext session whose peers keep to their streams goes on as far as it
can.  Its engine gathers the input bits (`Computation.drive_gather`) and compares the
output bits (`Computation.drive_compare`), and a handshake finds no other fingerprint
(`Computation.handshake`).  So a run leads to a position behind the first one
(`Computation.Position.run`).

A session that a run does not change has ended, or misses a part of the stream that its
position waits for (`Computation.Position.blocked`).
-/

namespace JointCircuit

open Plaintext

namespace Computation

variable {c : Compiled} {k : Computation c}

/-! ## The engine -/

theorem Playing.peers {s : Session} {sent : Nat} {got : Nat → Channel → Bool}
    (h : k.Playing s sent got) : s.peers = otherParties c.parties.length s.party := by
  rw [Session.peers, h.compiled]

/-- The rest of the comparison with the peers. -/
theorem drive_compare : ∀ (rest done : List Nat) (s : Session), s.peers = done ++ rest →
    k.Playing s 3 (fun q channel => channel == .a || done.contains q) → k.Fed s →
    ∃ i, 1 ≤ i ∧ k.Position (Session.drive (Plaintext.compare k.outputs rest) s) i
  | [], done, s, _, h, _ => by
      rw [Plaintext.compare, Session.drive, Session.finish_eq, Session.conclude_eq]
      refine ⟨4, by decide, .ended rfl h.compiled ?_ fun q hq tag => ?_⟩
      · rw [h.result]
        exact congrArg some (k.outcome_eq h.compiled)
      · exact (h.sent q hq tag).trans (if_pos tag.index_lt)
  | peer :: rest, done, s, hpeers, h, hfed => by
      have hmem : peer ∈ s.peers := hpeers ▸ List.mem_append_right _ List.mem_cons_self
      rw [Plaintext.compare, Session.drive_receiveOne (Session.mem_peers.mp hmem)]
      cases htake : s.take? peer (.engine .b) k.outputs.length with
      | none =>
          refine ⟨3, by decide, .comparing rfl hpeers ?_⟩
          exact h.congr rfl rfl rfl rfl (fun _ _ => rfl) fun _ _ => rfl
      | some taken =>
          obtain ⟨bytes, t⟩ := taken
          have hnodup : (done ++ peer :: rest).Nodup := hpeers ▸ s.nodup_peers
          have hnew : peer ∉ done := fun hdone =>
            (List.nodup_append.mp hnodup).2.2 peer hdone peer List.mem_cons_self rfl
          have hlen : k.outputs.length = (k.stream peer (.engine .b)).length :=
            (length_toBytes _).symm
          obtain ⟨rfl, ht, hfed, hparty⟩ := h.take hfed hmem (by simpa using hnew)
            (hlen ▸ htake) (fun q channel => channel == .a || (done ++ [peer]).contains q)
            fun q _ u => by cases u <;> by_cases hq : q = peer <;> simp [hq]
          simp only [stream, if_true]
          have hpeers' : t.peers = (done ++ [peer]) ++ rest := by
            rw [List.append_assoc, List.singleton_append, ← hpeers, ht.peers, h.peers, hparty]
          exact drive_compare rest (done ++ [peer]) t hpeers' ht hfed

/-- The engine with the bits of all parties. -/
theorem drive_afterGather {s : Session}
    (h : k.Playing s 2 fun q channel => channel == .a && q < c.parties.length) (hfed : k.Fed s) :
    ∃ i, 1 ≤ i ∧ k.Position (Session.drive
      (k.afterGather s.party ((List.range c.parties.length).flatMap k.bits)) s) i := by
  have hresult : EngineContext.evaluate ⟨s.party, c.parties.length, k.bits s.party, c.lowered⟩
      ((List.range c.parties.length).flatMap k.bits) = .returned k.outputs := by
    rw [EngineContext.evaluate, k.eval]
  rw [afterGather, hresult, Plaintext.conclude, ← h.peers,
    Session.drive_sendAll .b _ _ _ _ h.faulty]
  · have hdeeds : Session.sendDeeds .b (s.peers.map fun p => (p, toBytes k.outputs)) =
        rowDeeds s.peers (.engine .b) [toBytes k.outputs] := by
      rw [Session.sendDeeds, List.map_map, rowDeeds_singleton]
      rfl
    rw [hdeeds]
    refine drive_compare s.peers [] _ rfl ?_ (hfed.send _ _ _)
    refine (h.send (.engine .b) [toBytes k.outputs] (by simp [stream]) _).congr_got
      fun q hq channel => ?_
    have hlt : q < c.parties.length := by
      have hq : q ∈ s.peers := hq
      rw [h.peers] at hq
      exact List.mem_range.mp (List.mem_of_mem_filter hq)
    simp [hlt]
  · intro m hm
    obtain ⟨p, hp, rfl⟩ := List.mem_map.mp hm
    exact Session.mem_peers.mp hp

theorem flatMap_range_succ (j : Nat) :
    (List.range (j + 1)).flatMap k.bits = (List.range j).flatMap k.bits ++ k.bits j := by
  rw [List.range_succ, List.flatMap_append, List.flatMap_singleton]

/-- The rest of the gathering, from a party on. -/
theorem drive_gather : ∀ (m j : Nat) (s : Session), j + m = c.parties.length →
    k.Playing s 2 (fun q channel => channel == .a && q < j) → k.Fed s →
    ∃ i, 1 ≤ i ∧ k.Position (Session.drive (k.gatherFrom s.party j m) s) i
  | 0, j, s, hcount, h, hfed => by
      obtain rfl : j = c.parties.length := hcount
      exact drive_afterGather h hfed
  | m + 1, j, s, hcount, h, hfed => by
      rw [gatherFrom, List.range'_succ, List.map_cons, gather]
      by_cases hown : j = s.party
      · -- the own bits are there
        have hbits : (List.range j).flatMap k.bits ++ k.bits s.party =
            (List.range (j + 1)).flatMap k.bits := by
          rw [flatMap_range_succ, hown]
        rw [if_pos hown, hbits]
        refine drive_gather m (j + 1) s (by omega) (h.congr_got fun q hq channel => ?_) hfed
        have hne : q ≠ j := by
          rintro rfl
          rw [h.peers, otherParties, List.mem_filter] at hq
          exact absurd hown (of_decide_eq_true hq.2)
        have hiff : q < j + 1 ↔ q < j := by omega
        simp only [hiff]
      · have hmem : j ∈ s.peers := by
          rw [h.peers, otherParties, List.mem_filter]
          exact ⟨List.mem_range.mpr (by omega), decide_eq_true hown⟩
        rw [if_neg hown, Session.drive_receiveOne (Session.mem_peers.mp hmem)]
        cases htake : s.take? j (.engine .a) (k.bits j).length with
        | none =>
            refine ⟨2, by decide, .gathering rfl (by omega) hmem ?_⟩
            exact h.congr rfl rfl rfl rfl (fun _ _ => rfl) fun _ _ => rfl
        | some taken =>
            obtain ⟨bytes, t⟩ := taken
            have hlen : (k.bits j).length = (k.stream j (.engine .a)).length :=
              (length_toBytes _).symm
            obtain ⟨rfl, ht, hfed, hparty⟩ := h.take hfed hmem (by simp) (hlen ▸ htake)
              (fun q channel => channel == .a && q < j + 1) fun q _ u => by
                have hiff : q < j + 1 ↔ q = j ∨ q < j := by omega
                cases u <;> by_cases hq : q = j <;> simp [hq, hiff]
            simp only [stream, ofBytes_toBytes, ← hparty, ← flatMap_range_succ]
            exact drive_gather m (j + 1) t (by omega) ht hfed

/-- The messages with the input bits of a party, to all peers in turn. -/
theorem sendDeeds_inputs (peers : List Nat) (first second : Bytes) :
    Session.sendDeeds .a (peers.flatMap fun p => [(p, first), (p, second)]) =
      rowDeeds peers (.engine .a) [first, second] := by
  rw [Session.sendDeeds, List.map_flatMap]
  rfl

/-- The engine of a party. -/
theorem drive_engine {s : Session} (h : k.Playing s 1 fun _ _ => false) (hfed : k.Fed s) :
    ∃ i, 1 ≤ i ∧ k.Position (Session.drive (k.engine s.party) s) i := by
  rw [engine, acts]
  simp only
  rw [Session.drive_sendAll .a _ _ _ _ h.faulty, sendDeeds_inputs, k.widths, List.range_eq_range']
  · have hparts : [toBytes ((k.bits s.party).take ((k.bits s.party).length / 2)),
        toBytes ((k.bits s.party).drop ((k.bits s.party).length / 2))].flatten =
          k.stream s.party (.engine .a) := by
      rw [List.flatten_cons, List.flatten_singleton, ← toBytes_append, List.take_append_drop]
      rfl
    have hsent := h.send (.engine .a) _ hparts
    have hfed := hfed.send (.engine .a)
    rw [h.peers] at hsent hfed
    exact drive_gather c.parties.length 0 _ (Nat.zero_add _)
      ((hsent _).congr_got fun q _ channel => by simp) (hfed _ _)
  · intro m hm
    obtain ⟨p, hp, hm⟩ := List.mem_flatMap.mp hm
    rw [← h.peers] at hp
    rw [List.mem_pair] at hm
    rcases hm with rfl | rfl <;> exact Session.mem_peers.mp hp

/-! ## The handshake -/

/-- A peer that keeps to its streams sends no other fingerprint. -/
theorem Fed.not_rejects {s : Session} (h : k.Fed s) (hcompiled : s.compiled = c) {q : Nat}
    (hq : q ∈ s.peers) : ¬ s.compiled.fingerprint.Rejects (s.inbox q .setup) := by
  intro hrejects
  have hfront : s.inbox q .setup <+: s.compiled.fingerprint.bytes := by
    rw [hcompiled]
    exact h q hq .setup
  exact Fingerprint.not_rejects_of_front List.prefix_rfl (hrejects.mono hfront)

/-- Starting the engine of a session brings it to a position. -/
theorem Playing.startEngine {s : Session} (h : k.Playing s 1 fun _ _ => false) (hfed : k.Fed s)
    (hstage : s.stage = .handshakeSent) (hengine : s.engine = k.engine s.party) :
    ∃ i, 1 ≤ i ∧ k.Position s.startEngine i := by
  have heq : (s.advance .handshakeVerified).advance .computing =
      { s with stage := .computing } := by
    simp [Session.advance, hstage, Stage.isFinal]
  have hstart : s.startEngine =
      Session.drive (k.engine s.party) ({ s with stage := .computing }.record .started) := by
    rw [Session.startEngine, heq, ← hengine]
  have hplaying : k.Playing ({ s with stage := .computing }.record .started) 1
      fun _ _ => false := by
    refine h.congr rfl rfl rfl rfl (fun name tag => ?_) fun q channel => ?_
    · rw [Session.sentTo, Session.record, Array.toList_push, Session.sentToAmong_append]
      exact List.append_nil _
    · rw [Session.taken_push rfl fun _ _ => rfl]
      rfl
  have hinbox : k.Fed ({ s with stage := .computing }.record .started) := by
    intro q hq tag
    rw [Session.inbox, Session.taken_push rfl fun _ _ => rfl]
    exact hfed q hq tag
  rw [hstart]
  exact drive_engine hplaying hinbox

/-- Collecting fingerprints changes nothing else. -/
theorem Playing.collected {s s' : Session} {gs gs' : List Greeting} {sent : Nat}
    {got : Nat → Channel → Bool} (h : k.Playing s sent got)
    (hcollected : Session.Collected s gs s' gs') : k.Playing s' sent got := by
  have hothers := hcollected.others
  obtain ⟨mailbox, takes, rfl, htakes⟩ := hcollected.frame
  refine h.congr rfl rfl rfl rfl (fun name tag => ?_) fun q channel => hothers q _ (.inr (by simp))
  have hnone : s.sentToAmong takes.toList name tag = [] := by
    rw [Session.sentToAmong, List.flatMap_eq_nil_iff]
    intro d hd
    obtain ⟨peer, bytes, rfl⟩ := htakes d (Array.mem_toList_iff.mp hd)
    rfl
  rw [Session.sentTo, Array.toList_append, Session.sentToAmong_append]
  exact (congrArg (s.sentTo name tag ++ ·) hnone).trans (List.append_nil _)

theorem handshake {s : Session} {gs : List Greeting} (h : k.Playing s 1 fun _ _ => false)
    (hfed : k.Fed s) (hengine : s.engine = k.engine s.party) (hgreeted : s.Greeted gs) :
    ∃ i, 1 ≤ i ∧ k.Position (s.runHandshake gs) i := by
  have hcollected := Session.collect_collected gs s
  have hgreeted' := hgreeted.collected hcollected
  have h' := h.collected hcollected
  have hfed' := hfed.keeps hcollected.keeps
  have hengine' : (Session.collect gs s).2.engine = k.engine (Session.collect gs s).2.party := by
    obtain ⟨_, _, hframe, _⟩ := hcollected.frame
    rw [hframe]
    exact hengine
  rw [Session.runHandshake]
  simp only
  split
  · exact h'.startEngine hfed' hgreeted'.stage hengine'
  · refine ⟨1, Nat.le_refl 1, .greeting rfl hengine' ?_⟩
    exact h'.congr rfl rfl rfl rfl (fun _ _ => rfl) fun _ _ => rfl
  · rename_i peer hmismatch
    obtain ⟨g, hg, rfl, hverdict⟩ := Session.handshake_mismatch hmismatch
    exact absurd ((hgreeted'.hears g hg).rejected hverdict)
      (hfed'.not_rejects h'.compiled (hgreeted'.peers ▸ List.mem_map_of_mem hg))

/-! ## Runs -/

/-- A session without faults greets all its peers. -/
theorem greet_all {s : Session} (h : ∀ i, s.faulty i = none) (peers : List Nat) :
    ∃ attempts, Session.greet peers s =
      ({ s with attempts, deeds := s.deeds ++ (peers.map s.greetingTo).toArray }, true) := by
  have hthrough := (Session.greet_through peers s).mpr fun _ _ => h _
  obtain ⟨done, attempts, _, heq, hall⟩ := Session.greet_eq peers s
  obtain rfl := hall hthrough
  exact ⟨attempts, Prod.ext heq hthrough⟩

/-- The first run of a session. -/
theorem greet_handshake {s : Session} (h : k.Playing s 0 fun _ _ => false) (hfed : k.Fed s)
    (hengine : s.engine = k.engine s.party) (hworker : s.worker = .fresh)
    (hstanding : s.Standing) : ∃ i, 1 ≤ i ∧ k.Position s.run i := by
  cases hstanding with
  | fresh _ stage result kept attempts deeds =>
      obtain ⟨attempts, hgreet⟩ := greet_all h.faulty s.peers
      have hparts : [s.compiled.fingerprint.bytes].flatten = k.stream s.party .setup := by
        rw [List.flatten_singleton, h.compiled]
        rfl
      have hsent := h.send .setup _ hparts attempts
      have hfed := hfed.send .setup [s.compiled.fingerprint.bytes] attempts
      have hgreeted := Session.greeted_all stage result kept deeds attempts
      rw [rowDeeds_singleton] at hsent hfed
      rw [Session.run, hworker]
      simp only [hgreet]
      have hadvance : Session.advance
          { s with attempts, deeds := s.deeds ++ (s.peers.map s.greetingTo).toArray }
          .handshakeSent =
            { s with
              attempts
              deeds := s.deeds ++ (s.peers.map s.greetingTo).toArray
              stage := .handshakeSent } := by
        simp [Session.advance, stage, Stage.isFinal]
      rw [hadvance] at hgreeted ⊢
      refine handshake ?_ hfed hengine hgreeted
      exact hsent.congr rfl rfl rfl rfl (fun _ _ => rfl) fun _ _ => rfl
  | greeted hgreeting => cases hworker.symm.trans hgreeting
  | barred h => cases hworker.symm.trans h.worker
  | engaged h rest =>
      rcases rest with ⟨_, _, hrest⟩ | hrest <;> cases hworker.symm.trans hrest

/-- A run leads from any position to one behind the first. -/
theorem Position.run {s : Session} {i : Nat} (h : k.Position s i) (hfed : k.Fed s)
    (hstanding : s.Standing) : ∃ i', 1 ≤ i' ∧ k.Position s.run i' := by
  cases h with
  | fresh worker hengine h => exact greet_handshake h hfed hengine worker hstanding
  | greeting worker hengine h =>
      rw [Session.run, worker]
      exact handshake h hfed hengine (hstanding.greeted_of_worker worker)
  | @gathering j m worker hcount hpeer h =>
      have hne : j ≠ s.party := by
        rintro rfl
        simp [Session.mem_peers, Session.isPeer] at hpeer
      have hgather := drive_gather (m + 1) j s (by omega) h hfed
      rw [gatherFrom, List.range'_succ, List.map_cons, gather, if_neg hne] at hgather
      rw [Session.run_receiveOne worker (Session.mem_peers.mp hpeer)]
      exact hgather
  | @comparing done rest peer worker hpeers h =>
      have hpeer : peer ∈ s.peers := hpeers ▸ List.mem_append_right _ List.mem_cons_self
      rw [Session.run_receiveOne worker (Session.mem_peers.mp hpeer)]
      exact drive_compare (peer :: rest) done s hpeers h hfed
  | ended worker compiled result sent =>
      rw [Session.run, worker]
      exact ⟨4, by decide, .ended worker compiled result sent⟩

/-- A session that waits for fingerprints after a run misses one. -/
theorem short_of_inHandshake {s : Session} {gs : List Greeting} (h : s.Greeted gs)
    (hworker : s.worker = .greeting gs) (hrun : (s.runHandshake gs).InHandshake) :
    ∃ q ∈ s.peers, (s.inbox q .setup).length < fingerprintSize := by
  have hcollected := Session.collect_collected gs s
  have hgreeted := h.collected hcollected
  have hunfinished := (h.inHandshake_iff fun ws next hwaits => by
    rw [hworker] at hwaits
    cases hwaits).mp hrun
  have hleft := Session.collect_unfinished (h.peers ▸ s.nodup_peers) hunfinished
  obtain ⟨g, hg, hopen⟩ := Session.exists_open hunfinished
  have hshort := (hgreeted.verdict_eq_none hleft hg).mp (by simpa [Greeting.isOpen] using hopen)
  rw [hcollected.inbox] at hshort
  have hpeer : g.peer ∈ (Session.collect gs s).1.map Greeting.peer := List.mem_map_of_mem hg
  rw [hcollected.peers, h.peers] at hpeer
  exact ⟨g.peer, hpeer, hshort⟩

/-- A session that a run does not change has ended, or misses a part of a stream. -/
theorem Position.blocked {s : Session} {i : Nat} (h : k.Position s i) (hstart : 1 ≤ i)
    (hend : i < 4) (hstanding : s.Standing) (hrun : s.run = s) :
    ∃ q ∈ s.peers, ∃ tag, tag.index + 1 = i ∧ s.inbox q tag ≠ k.stream q tag := by
  cases h with
  | fresh => exact absurd hstart (by decide)
  | @greeting gs worker hengine h =>
      have hgreeted := hstanding.greeted_of_worker worker
      have hwaits : (s.runHandshake gs).InHandshake := by
        have hsame : s.runHandshake gs = s := by
          rw [Session.run, worker] at hrun
          exact hrun
        rw [hsame]
        exact ⟨.inr hgreeted.stage, hgreeted.result⟩
      obtain ⟨q, hq, hshort⟩ := short_of_inHandshake hgreeted worker hwaits
      refine ⟨q, hq, .setup, rfl, fun heq => ?_⟩
      have hlen := congrArg List.length heq
      rw [stream, c.fingerprint.size_eq] at hlen
      exact absurd hlen (Nat.ne_of_lt hshort)
  | @gathering j m worker hcount hpeer h =>
      have hshort := Session.queue_lt_of_run_eq worker (Session.mem_peers.mp hpeer) hrun
      refine ⟨j, hpeer, .engine .a, rfl, fun heq => ?_⟩
      have hlen := congrArg List.length heq
      rw [Session.inbox, h.got j hpeer, if_neg (by simp), List.nil_append, stream,
        length_toBytes] at hlen
      exact absurd hlen (Nat.ne_of_lt hshort)
  | @comparing done rest peer worker hpeers h =>
      have hpeer : peer ∈ s.peers := hpeers ▸ List.mem_append_right _ List.mem_cons_self
      have hshort := Session.queue_lt_of_run_eq worker (Session.mem_peers.mp hpeer) hrun
      have hnodup : (done ++ peer :: rest).Nodup := hpeers ▸ s.nodup_peers
      have hnew : peer ∉ done := fun hdone =>
        (List.nodup_append.mp hnodup).2.2 peer hdone peer List.mem_cons_self rfl
      refine ⟨peer, hpeer, .engine .b, rfl, fun heq => ?_⟩
      have hlen := congrArg List.length heq
      rw [Session.inbox, h.got peer hpeer, if_neg (by simp [hnew]), List.nil_append, stream,
        length_toBytes] at hlen
      exact absurd hlen (Nat.ne_of_lt hshort)
  | ended => exact absurd hend (by decide)

end Computation

end JointCircuit

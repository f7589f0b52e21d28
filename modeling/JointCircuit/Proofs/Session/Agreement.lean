import JointCircuit.Proofs.Session.History
import JointCircuit.Session.Plaintext
import Mathlib.Data.List.TakeWhile

/-!
# Agreement before the engine

Whatever peers send and however a session is used, nothing that depends on the inputs
leaves it before all peers sent its own fingerprint.

A session is `Session.Committed` once there is any sign that its engine was started.
Then the first bytes that every peer sent for the setup are the fingerprint.  Before the
start only the fingerprint is sent, to one peer after the other, and after the start it
is not sent again.  A session that blames a peer got another fingerprint from it.
-/

namespace JointCircuit

/-- Decide whether a deed is the start of the engine. -/
def Deed.isStart : Deed → Bool
  | .started => true
  | _ => false

namespace Session

/-- What was done before the engine was started. -/
def opening (s : Session) : List Deed := s.deeds.toList.takeWhile fun d => !d.isStart

/-- What was done from the start of the engine on. -/
def sequel (s : Session) : List Deed := s.deeds.toList.dropWhile fun d => !d.isStart

/-- There is a sign that the engine was started: the start itself, the stage, or a message
on one of its channels. -/
def Committed (s : Session) : Prop :=
  Deed.started ∈ s.deeds.toList ∨ s.stage ∈ [.handshakeVerified, .computing, .done] ∨
    ∃ m ∈ sentAmong s.deeds.toList, m.2.head? = some 1 ∨ m.2.head? = some 2

/-! ## Messages of the handshake and of engines -/

theorem not_isStart_of_handshake {ds : List Deed} (h : ∀ d ∈ ds, d.OfHandshake) :
    ∀ d ∈ ds, (!d.isStart) = true := by
  intro d hd
  cases d with
  | started => exact absurd (h _ hd) id
  | _ => rfl

theorem mem_sentAmong {ds : List Deed} {m : Nat × Bytes} :
    m ∈ sentAmong ds ↔
      ∃ peer tag payload, Deed.sent peer tag payload ∈ ds ∧ m = (peer, frame tag payload) := by
  rw [sentAmong, List.mem_filterMap]
  constructor
  · rintro ⟨d, hd, hm⟩
    cases d with
    | sent peer tag payload => exact ⟨peer, tag, payload, hd, (Option.some.inj hm).symm⟩
    | _ => cases hm
  · rintro ⟨peer, tag, payload, hd, rfl⟩
    exact ⟨_, hd, rfl⟩

theorem head_of_handshake {ds : List Deed} (h : ∀ d ∈ ds, d.OfHandshake) :
    ∀ m ∈ sentAmong ds, m.2.head? = some 0 := by
  intro m hm
  obtain ⟨peer, tag, payload, hd, rfl⟩ := mem_sentAmong.mp hm
  obtain rfl : tag = .setup := h _ hd
  rfl

theorem head_of_engine {ds : List Deed} (h : ∀ d ∈ ds, d.OfEngine) :
    ∀ m ∈ sentAmong ds, m.2.head? ≠ some 0 := by
  intro m hm
  obtain ⟨peer, tag, payload, hd, rfl⟩ := mem_sentAmong.mp hm
  rcases tag with _ | ⟨_ | _⟩
  · exact absurd rfl (h _ hd)
  · simp [frame, Tag.byte, Tag.index]
  · simp [frame, Tag.byte, Tag.index]

/-- A session that did nothing but the handshake shows no sign of its engine. -/
theorem not_committed {s : Session} (hdeeds : ∀ d ∈ s.deeds.toList, d.OfHandshake)
    (hstage : s.stage ∉ [.handshakeVerified, .computing, .done]) : ¬ s.Committed := by
  rintro (hstart | hin | ⟨m, hm, hhead⟩)
  · exact hdeeds _ hstart
  · exact hstage hin
  · rw [head_of_handshake hdeeds m hm] at hhead
    rcases hhead with hhead | hhead <;> cases hhead

theorem Standing.agreed {s : Session} (h : s.Standing) (hcommitted : s.Committed) :
    ∀ peer ∈ s.peers, s.compiled.fingerprint.bytes <+: s.inbox peer .setup := by
  cases h with
  | fresh worker stage result kept attempts deeds =>
      exact absurd hcommitted (not_committed (by simp [deeds]) (by simp [stage]))
  | greeted worker h =>
      refine absurd hcommitted (not_committed (fun d hd => ?_) (by simp [h.stage]))
      exact h.deeds d (Array.mem_toList_iff.mp hd)
  | barred h =>
      refine absurd hcommitted (not_committed (fun d hd => ?_) (by simp [h.stage]))
      exact h.deeds d (Array.mem_toList_iff.mp hd)
  | engaged h rest => exact h.agreed

/-- Without a start, the whole of the deeds is the opening. -/
theorem opening_of_handshake {s : Session} (h : ∀ d ∈ s.deeds, d.OfHandshake) :
    s.opening = s.deeds.toList ∧ s.sequel = [] := by
  have hnone := not_isStart_of_handshake fun d hd => h d (Array.mem_toList_iff.mp hd)
  exact ⟨List.takeWhile_eq_self_iff.mpr hnone, List.dropWhile_eq_nil_iff.mpr hnone⟩

theorem Standing.sent {s : Session} (h : s.Standing) :
    sentAmong s.opening <+: s.greetings ∧ ∀ m ∈ sentAmong s.sequel, m.2.head? ≠ some 0 := by
  cases h with
  | fresh worker stage result kept attempts deeds =>
      obtain ⟨hopening, hsequel⟩ := opening_of_handshake (s := s) (by simp [deeds])
      rw [hopening, hsequel, deeds]
      refine ⟨?_, fun _ hm => absurd hm List.not_mem_nil⟩
      exact List.nil_prefix
  | greeted worker h =>
      obtain ⟨hopening, hsequel⟩ := opening_of_handshake h.deeds
      rw [hopening, hsequel, h.sent]
      exact ⟨List.prefix_rfl, fun _ hm => absurd hm List.not_mem_nil⟩
  | barred h =>
      obtain ⟨hopening, hsequel⟩ := opening_of_handshake h.deeds
      rw [hopening, hsequel]
      exact ⟨h.sent, fun _ hm => absurd hm List.not_mem_nil⟩
  | engaged h rest =>
      obtain ⟨before, after, hdeeds, hbefore, hsent, hafter⟩ := h.deeds
      have hnone := not_isStart_of_handshake hbefore
      have hopening : s.opening = before := by
        rw [opening, hdeeds, List.takeWhile_append_of_pos hnone]
        exact List.append_nil _
      have hsequel : s.sequel = .started :: after := by
        rw [sequel, hdeeds, List.dropWhile_append_of_pos hnone]
        rfl
      have hmessages : sentAmong (.started :: after) = sentAmong after := rfl
      rw [hopening, hsequel, hsent, hmessages]
      exact ⟨List.prefix_rfl, head_of_engine hafter⟩

theorem Standing.blame {s : Session} (h : s.Standing) {name : String}
    (hresult : s.result = some (.error (.setupMismatch name))) : s.Mismatched name := by
  cases h with
  | fresh worker stage result => cases result.symm.trans hresult
  | greeted worker h => cases h.result.symm.trans hresult
  | barred h => exact h.blame name hresult
  | engaged h rest => exact absurd hresult (h.blame name)

/-- Agreement comes before the engine, for every history of a session, with any messages
of any senders, any engine, and attempts to send that break down. -/
theorem handshake_safe {c : Compiled} {name : String} {values : Values} {program : EngineProgram}
    {faulty : Nat → Option String} {s : Session} (h : start c name values program faulty = .ok s)
    (es : List Event) :
    ((s.steps es).Committed → ∀ peer ∈ s.peers,
      (s.received es peer .setup).take fingerprintSize = c.fingerprint.bytes) ∧
    (sentAmong (s.steps es).opening <+:
        s.peers.map (fun peer => (peer, frame .setup c.fingerprint.bytes)) ∧
      ∀ m ∈ sentAmong (s.steps es).sequel, m.2.head? ≠ some Tag.setup.byte) ∧
    ∀ blamed, (s.steps es).result = some (.error (.setupMismatch blamed)) →
      ∃ peer ∈ s.peers, s.nameOf peer = blamed ∧
        fingerprintSize ≤ (s.received es peer .setup).length ∧
        (s.received es peer .setup).take fingerprintSize ≠ c.fingerprint.bytes := by
  have hstanding := (start_standing h).steps es
  obtain ⟨hc, hp, _⟩ := (start_standing h).steps_frame es
  have hcompiled : s.compiled = c := by
    obtain ⟨_, _, _, _, rfl⟩ := start_eq_ok h
    rfl
  have hpeers := peers_congr hc hp
  refine ⟨fun hcommitted peer hpeer => ?_, ?_, fun blamed hblamed => ?_⟩
  · have hagreed := hstanding.agreed hcommitted peer (hpeers ▸ hpeer)
    rw [inbox_steps h, hc, hcompiled] at hagreed
    rw [← c.fingerprint.size_eq]
    exact (List.prefix_iff_eq_take.mp hagreed).symm
  · have hsent := hstanding.sent
    rw [greetings_congr hc hp, greetings, hcompiled] at hsent
    exact hsent
  · obtain ⟨peer, hpeer, hname, hrejects⟩ := hstanding.blame hblamed
    obtain ⟨hlen, hne⟩ := hrejects
    rw [inbox_steps h] at hlen hne
    rw [hc, hcompiled] at hne
    refine ⟨peer, hpeers ▸ hpeer, ?_, hlen, hne⟩
    rw [nameOf, names, hc] at hname
    exact hname

/-! ## Two parties -/

/-- A fingerprint at will. -/
def sampleFingerprint : Fingerprint := ⟨List.replicate 32 7, rfl⟩

/-- A compiled setup of two parties with one bit each. -/
def pairCompiled : Compiled :=
  { parties := [⟨"alice", ["a"], ["c"]⟩, ⟨"bob", ["b"], ["c"]⟩]
    fingerprint := sampleFingerprint
    lowered := { gates := [.and 0 1 2], wireCount := 3, partyBits := [1, 1], outputBits := 1 }
    inputs := [[⟨"a", 0, 1⟩], [⟨"b", 1, 1⟩]]
    outputs := [⟨"c", 2, 1⟩]
    wires := ((IndexMap.empty.set 0 0).set 1 1).set 2 2 }

/-- The fingerprint of a peer comes in two messages, the second one with more behind it, and
bytes for the engine come between them. -/
def splitFingerprint : List Event :=
  [.message "bob" (0 :: List.replicate 5 7), .run, .message "bob" [1, 1],
    .message "bob" (0 :: List.replicate 28 7), .run]

theorem handshake_safe_pair : ∃ s : Session,
    start pairCompiled "alice" (.ofList [("a", .int 1)]) ⟨2, 9, Plaintext.acts⟩ (fun _ => none) =
      .ok s ∧
    1 ∈ s.peers ∧ (s.steps splitFingerprint).Committed ∧
    (s.received splitFingerprint 1 .setup).take fingerprintSize =
      pairCompiled.fingerprint.bytes := by
  obtain ⟨s, hstart, hpeer, hstage⟩ : ∃ s : Session,
      start pairCompiled "alice" (.ofList [("a", .int 1)]) ⟨2, 9, Plaintext.acts⟩
        (fun _ => none) = .ok s ∧
      1 ∈ s.peers ∧ (s.steps splitFingerprint).stage = .computing :=
    ⟨_, rfl, by decide, rfl⟩
  have hcommitted : (s.steps splitFingerprint).Committed := .inr (.inl (by simp [hstage]))
  exact ⟨s, hstart, hpeer, hcommitted,
    (handshake_safe hstart splitFingerprint).1 hcommitted 1 hpeer⟩

end Session

end JointCircuit

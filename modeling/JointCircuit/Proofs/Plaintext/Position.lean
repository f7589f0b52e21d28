import JointCircuit.Proofs.Plaintext.Drive
import JointCircuit.Proofs.Session.Mismatch
import JointCircuit.Proofs.Traffic.Law

/-!
# Where a plaintext session is

In a computation of all parties every party sends the same three streams to each of its
peers: the fingerprint, then its input bits on channel A, then the output bits on channel B
(`Computation.stream`).  A session whose peers keep to their streams is always at one of
five positions (`Computation.Position`), numbered by how many streams it has sent: nothing
was done, it waits for fingerprints, for input bits or for output bits, or it has ended
with the share of its party.

`Computation.Playing` is what the positions before the end have in common.  Sending a
stream and taking one lead from there to where the next position is.
-/

namespace JointCircuit

open Plaintext

/-- What a party gets of the results of all outputs: those that it sees. -/
def Compiled.shareOf (c : Compiled) (p : Nat) :
    Except EncodingError Results → Except SessionError Results
  | .error e => .error (.encoding e)
  | .ok results =>
      .ok (results.restrict ((c.parties[p]?.map Party.outputs).getD []).contains)

/-- What the parties of a compiled setup compute together. -/
structure Computation (c : Compiled) where
  bits : Nat → List Bool
  outputs : List Bool
  names : (c.parties.map Party.name).Nodup
  /-- The lowered circuit has as many input wires for each party. -/
  widths : c.lowered.partyBits = (List.range c.parties.length).map fun q => (bits q).length
  /-- The lowered circuit gives the output block. -/
  eval : c.lowered.eval ((List.range c.parties.length).flatMap bits) = .ok outputs

/-- Deeds that send the same messages to parties in turn. -/
def rowDeeds (peers : List Nat) (tag : Tag) (parts : List Bytes) : List Deed :=
  peers.flatMap fun p => parts.map fun bytes => .sent p tag bytes

theorem rowDeeds_singleton (peers : List Nat) (tag : Tag) (bytes : Bytes) :
    rowDeeds peers tag [bytes] = peers.map fun p => .sent p tag bytes :=
  List.map_eq_flatMap.symm

/-- In a row of lists of which at most one is not empty there is only that one. -/
theorem flatMap_of_unique {α β : Type} {xs : List α} {f : α → List β} {x : α} (hnodup : xs.Nodup)
    (hx : x ∈ xs) (hother : ∀ y ∈ xs, y ≠ x → f y = []) : xs.flatMap f = f x := by
  obtain ⟨before, after, rfl⟩ := List.append_of_mem hx
  obtain ⟨_, hafter, hapart⟩ := List.nodup_append.mp hnodup
  have hnil : ∀ ys : List α, (∀ y ∈ ys, f y = []) → ys.flatMap f = [] := fun ys h =>
    List.flatMap_eq_nil_iff.mpr h
  rw [List.flatMap_append, List.flatMap_cons, hnil before, hnil after, List.append_nil,
    List.nil_append]
  · intro y hy
    refine hother y (List.mem_append_right _ (List.mem_cons_of_mem _ hy)) ?_
    rintro rfl
    exact (List.nodup_cons.mp hafter).1 hy
  · intro y hy
    exact hother y (List.mem_append_left _ hy) (hapart y hy x List.mem_cons_self)

namespace Session

theorem takenAmong_rowDeeds (peers : List Nat) (t : Tag) (parts : List Bytes) (peer : Nat)
    (tag : Tag) : takenAmong (rowDeeds peers t parts) peer tag = [] := by
  rw [takenAmong, List.flatMap_eq_nil_iff]
  intro d hd
  obtain ⟨p, _, hp⟩ := List.mem_flatMap.mp hd
  obtain ⟨bytes, _, rfl⟩ := List.mem_map.mp hp
  rfl

/-- What is sent to all peers in turn is sent to each of them. -/
theorem sentToAmong_rowDeeds {s : Session}
    (hnames : (s.compiled.parties.map Party.name).Nodup) {q : Nat} (hq : q ∈ s.peers)
    (t tag : Tag) (parts : List Bytes) :
    s.sentToAmong (rowDeeds s.peers t parts) (s.nameOf q) tag =
      if t = tag then parts.flatten else [] := by
  have hlt : ∀ p ∈ s.peers, p < s.compiled.parties.length := fun p hp =>
    List.mem_range.mp (List.mem_of_mem_filter hp)
  rw [sentToAmong, rowDeeds, List.flatMap_assoc,
    flatMap_of_unique (x := q) s.nodup_peers hq fun p hp hne => ?_]
  · rw [List.flatMap_map]
    by_cases ht : t = tag
    · simp [ht, List.flatMap_id']
    · simp [ht]
  · rw [List.flatMap_map, List.flatMap_eq_nil_iff]
    intro bytes _
    exact if_neg fun h => hne (nameOf_inj hnames (hlt p hp) (hlt q hq) h.1)

end Session

namespace Computation

variable {c : Compiled} (k : Computation c)

/-- What a party sends to each of its peers under a tag. -/
def stream (q : Nat) : Tag → Bytes
  | .setup => c.fingerprint.bytes
  | .engine .a => toBytes (k.bits q)
  | .engine .b => toBytes k.outputs

/-- The result of a party. -/
def share (p : Nat) : Except SessionError Results := c.shareOf p (c.decodeOutput k.outputs)

theorem outcome_eq {s : Session} (h : s.compiled = c) :
    s.outcome k.outputs = k.share s.party := by
  subst h
  rw [Session.outcome, share]
  cases s.compiled.decodeOutput k.outputs <;> rfl

/-- The peers of a session keep to their streams. -/
def Fed (s : Session) : Prop := ∀ q ∈ s.peers, ∀ tag, s.inbox q tag <+: k.stream q tag

/-- A session that has no result, sent the first `sent` streams, and took the streams that
`got` tells of its peers on the channels. -/
structure Playing (s : Session) (sent : Nat) (got : Nat → Channel → Bool) : Prop where
  compiled : s.compiled = c
  faulty : ∀ i, s.faulty i = none
  result : s.result = none
  /-- The streams before `sent` went to all peers, and nothing else. -/
  sent : ∀ q ∈ s.peers, ∀ tag,
    s.sentTo (s.nameOf q) tag = if tag.index < sent then k.stream s.party tag else []
  /-- The streams in `got` were taken, and nothing else. -/
  got : ∀ q ∈ s.peers, ∀ channel,
    s.taken q (.engine channel) = if got q channel then k.stream q (.engine channel) else []

/-- What the engine of a party does. -/
def engine (p : Nat) : Engine := acts ⟨p, c.parties.length, k.bits p, c.lowered⟩

/-- What it does once it has the bits of all parties. -/
def afterGather (p : Nat) (bits : List Bool) : Engine :=
  conclude (otherParties c.parties.length p)
    (EngineContext.evaluate ⟨p, c.parties.length, k.bits p, c.lowered⟩ bits)

/-- What it does with the bits of `j` and the parties behind it, `m` of them. -/
def gatherFrom (p j m : Nat) : Engine :=
  gather p (k.bits p) j ((List.range' j m).map fun q => (k.bits q).length)
    ((List.range j).flatMap k.bits) (k.afterGather p)

/-- Where a session is. -/
inductive Position (s : Session) : Nat → Prop
  /-- Nothing was done. -/
  | fresh (worker : s.worker = .fresh) (hengine : s.engine = k.engine s.party)
      (h : k.Playing s 0 fun _ _ => false) : Position s 0
  /-- It waits for fingerprints. -/
  | greeting {gs : List Greeting} (worker : s.worker = .greeting gs)
      (hengine : s.engine = k.engine s.party) (h : k.Playing s 1 fun _ _ => false) : Position s 1
  /-- It waits for the input bits of a party. -/
  | gathering {j m : Nat}
      (worker : s.worker = .waiting [.pending ⟨j, .a, (k.bits j).length⟩]
        (onAnswer fun bytes => gather s.party (k.bits s.party) (j + 1)
          ((List.range' (j + 1) m).map fun q => (k.bits q).length)
          ((List.range j).flatMap k.bits ++ ofBytes bytes) (k.afterGather s.party)))
      (hcount : j + 1 + m = c.parties.length) (hpeer : j ∈ s.peers)
      (h : k.Playing s 2 fun q channel => channel == .a && q < j) : Position s 2
  /-- It waits for the output bits of a peer. -/
  | comparing {done rest : List Nat} {peer : Nat}
      (worker : s.worker = .waiting [.pending ⟨peer, .b, k.outputs.length⟩]
        (onAnswer fun bytes => if bytes = toBytes k.outputs then compare k.outputs rest
          else .finish (.failed s!"outputs differ from party {peer}")))
      (hpeers : s.peers = done ++ peer :: rest)
      (h : k.Playing s 3 fun q channel => channel == .a || done.contains q) : Position s 3
  /-- It has ended. -/
  | ended (worker : s.worker = .ended) (compiled : s.compiled = c)
      (result : s.result = some (k.share s.party))
      (sent : ∀ q ∈ s.peers, ∀ tag, s.sentTo (s.nameOf q) tag = k.stream s.party tag) :
      Position s 4

variable {k}

/-! ## Sending and taking -/

theorem Playing.congr {s t : Session} {sent : Nat} {got : Nat → Channel → Bool}
    (h : k.Playing s sent got) (hcompiled : t.compiled = s.compiled)
    (hparty : t.party = s.party) (hfaulty : t.faulty = s.faulty) (hresult : t.result = s.result)
    (hsent : ∀ name tag, t.sentTo name tag = s.sentTo name tag)
    (htaken : ∀ q channel, t.taken q (.engine channel) = s.taken q (.engine channel)) :
    k.Playing t sent got := by
  have hpeers := Session.peers_congr hcompiled hparty
  refine ⟨hcompiled.trans h.compiled, hfaulty ▸ h.faulty, hresult.trans h.result,
    fun q hq tag => ?_, fun q hq channel => ?_⟩
  · rw [hsent, Session.nameOf_congr hcompiled, h.sent q (hpeers ▸ hq), hparty]
  · rw [htaken, h.got q (hpeers ▸ hq)]

theorem Playing.congr_got {s : Session} {sent : Nat} {got got' : Nat → Channel → Bool}
    (h : k.Playing s sent got) (heq : ∀ q ∈ s.peers, ∀ channel, got' q channel = got q channel) :
    k.Playing s sent got' :=
  ⟨h.compiled, h.faulty, h.result, h.sent,
    fun q hq channel => heq q hq channel ▸ h.got q hq channel⟩

/-- Sending the next stream to all peers. -/
theorem Playing.send {s : Session} (tag : Tag) {got : Nat → Channel → Bool}
    (h : k.Playing s tag.index got) (parts : List Bytes)
    (hparts : parts.flatten = k.stream s.party tag) (attempts : Nat) :
    k.Playing
      { s with attempts, deeds := s.deeds ++ (rowDeeds s.peers tag parts).toArray }
      (tag.index + 1) got := by
  refine ⟨h.compiled, h.faulty, h.result, fun q hq u => ?_, fun q hq channel => ?_⟩
  · have hnames : (s.compiled.parties.map Party.name).Nodup := by
      rw [h.compiled]
      exact k.names
    have hsent : Session.sentTo
        { s with attempts, deeds := s.deeds ++ (rowDeeds s.peers tag parts).toArray }
        (s.nameOf q) u =
          s.sentTo (s.nameOf q) u ++
            s.sentToAmong (rowDeeds s.peers tag parts) (s.nameOf q) u := by
      rw [Session.sentTo, Array.toList_append, List.toList_toArray, Session.sentToAmong_append]
      rfl
    refine hsent.trans ?_
    rw [h.sent q hq u, Session.sentToAmong_rowDeeds hnames hq, hparts]
    by_cases hu : tag = u
    · subst hu
      simp
    · have hne : u.index ≠ tag.index := fun heq => hu (Tag.index_inj heq.symm)
      rw [if_neg hu, List.append_nil]
      by_cases hlt : u.index < tag.index
      · rw [if_pos hlt, if_pos (Nat.lt_succ_of_lt hlt)]
      · rw [if_neg hlt, if_neg (by omega)]
  · have htaken : Session.taken
        { s with attempts, deeds := s.deeds ++ (rowDeeds s.peers tag parts).toArray }
        q (.engine channel) = s.taken q (.engine channel) := by
      rw [Session.taken, Array.toList_append, List.toList_toArray, takenAmong_append,
        Session.takenAmong_rowDeeds, List.append_nil]
      rfl
    exact htaken.trans (h.got q hq channel)

theorem Fed.send {s : Session} (h : k.Fed s) (tag : Tag) (parts : List Bytes) (attempts : Nat) :
    k.Fed { s with attempts, deeds := s.deeds ++ (rowDeeds s.peers tag parts).toArray } := by
  intro q hq u
  have hinbox : Session.inbox
      { s with attempts, deeds := s.deeds ++ (rowDeeds s.peers tag parts).toArray } q u =
        s.inbox q u := by
    simp only [Session.inbox, Session.taken, Array.toList_append, takenAmong_append,
      Session.takenAmong_rowDeeds, List.append_nil]
  exact hinbox ▸ h q hq u

theorem Fed.keeps {s s' : Session} (h : k.Fed s) (hkeeps : s.Keeps s') : k.Fed s' := by
  intro q hq tag
  rw [Session.peers_congr hkeeps.compiled hkeeps.party] at hq
  rw [hkeeps.inbox]
  exact h q hq tag

/-- A stream that is long enough is taken as a whole. -/
theorem Playing.take {s s' : Session} {sent : Nat} {got : Nat → Channel → Bool}
    (h : k.Playing s sent got) (hfed : k.Fed s) {q : Nat} (hq : q ∈ s.peers) {channel : Channel}
    (hgot : got q channel = false) {bytes : Bytes}
    (htake : s.take? q (.engine channel) (k.stream q (.engine channel)).length =
      some (bytes, s')) (got' : Nat → Channel → Bool)
    (hgot' : ∀ p ∈ s.peers, ∀ u,
      got' p u = if p = q ∧ u = channel then true else got p u) :
    bytes = k.stream q (.engine channel) ∧ k.Playing s' sent got' ∧ k.Fed s' ∧
      s'.party = s.party := by
  have htaken := Session.taken_took htake
  have hinbox := Session.inbox_took htake
  obtain ⟨mailbox, hmailbox, hs'⟩ := Session.take?_eq_some.mp htake
  have hown : s'.taken q (.engine channel) = bytes := by
    rw [htaken, if_pos ⟨rfl, rfl⟩, h.got q hq, hgot]
    rfl
  have hbytes : bytes = k.stream q (.engine channel) := by
    have hfront : bytes <+: k.stream q (.engine channel) := by
      rw [← hown]
      exact (s'.taken_front q _).trans (hinbox q _ ▸ hfed q hq _)
    exact hfront.eq_of_length (Mailbox.queue_take hmailbox).1
  have hpeers : s'.peers = s.peers := by rw [hs']; rfl
  refine ⟨hbytes, ⟨?_, ?_, ?_, fun p hp tag => ?_, fun p hp u => ?_⟩, fun p hp tag => ?_, ?_⟩
  · rw [hs']
    exact h.compiled
  · rw [hs']
    exact h.faulty
  · rw [hs']
    exact h.result
  · rw [hpeers] at hp
    have hsent : s'.sentTo (s'.nameOf p) tag = s.sentTo (s.nameOf p) tag := by
      rw [hs', Session.sentTo, Array.toList_push, Session.sentToAmong_append]
      exact List.append_nil _
    rw [hsent, h.sent p hp, hs']
  · rw [hpeers] at hp
    rw [hgot' p hp u]
    by_cases heq : p = q ∧ u = channel
    · obtain ⟨rfl, rfl⟩ := heq
      rw [hown, hbytes]
      simp
    · have hne : ¬ (p = q ∧ Tag.engine u = Tag.engine channel) := fun hsame =>
        heq ⟨hsame.1, Tag.engine.inj hsame.2⟩
      rw [htaken, if_neg hne, if_neg heq, h.got p hp]
  · rw [hinbox]
    exact hfed p (hpeers ▸ hp) tag
  · rw [hs']

end Computation

end JointCircuit

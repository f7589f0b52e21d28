import JointCircuit.Session.Event
import Mathlib.Logic.Relation

/-!
# Acts of an engine

An engine changes its session only by acts: it sends and takes bytes on its own two
channels, addresses a party that is not another one, writes notes, keeps its access,
waits and ends.  `Session.Act` lists them, and `Session.Acts` is a row of them.

A run of an engine is a row of acts (`Session.drive_acts`), and so is a use of the
access that an engine kept.  What every act preserves holds after every run, so no
other proof has to go through the tree of an engine.
-/

namespace JointCircuit

namespace Session

/-! ## What the parts of a session do -/

/-- The stage of a session that settled on a result. -/
def settledStage (s : Session) (result : Except SessionError Results) : Stage :=
  if s.result.isSome || s.stage.isFinal then s.stage
  else match result with
    | .ok _ => .done
    | .error _ => .failed

/-- Settling changes nothing but the stage and the result. -/
theorem settle_eq (s : Session) (result : Except SessionError Results) :
    s.settle result =
      { s with stage := s.settledStage result, result := some (s.result.getD result) } := by
  obtain ⟨_, _, _, _, _, stage, old, _, _, _, _, _⟩ := s
  cases old with
  | some _ => rfl
  | none =>
      simp only [settle, advance, settledStage, Option.isSome_none, Bool.false_or,
        Option.getD_none]
      cases hfinal : stage.isFinal <;> cases result <;> rfl

/-- The result of a session whose engine ended. -/
def verdict (s : Session) : EngineResult → Except SessionError Results
  | .returned bits => s.outcome bits
  | .failed text => .error (.engineFailed text)
  | .crashed text => .error (.engineCrashed text)

theorem verdict_congr {s s' : Session} (hc : s'.compiled = s.compiled) (hp : s'.party = s.party)
    (result : EngineResult) : s'.verdict result = s.verdict result := by
  cases result with
  | returned bits => simp only [verdict, outcome, hc, hp]
  | failed text => rfl
  | crashed text => rfl

theorem finish_eq (s : Session) (result : EngineResult) :
    s.finish result = s.conclude (s.verdict result) := by
  cases result <;> rfl

/-- Concluding settles and ends the worker. -/
theorem conclude_eq (s : Session) (result : Except SessionError Results) :
    s.conclude result =
      { s with
        stage := s.settledStage result
        result := some (s.result.getD result)
        worker := .ended } := by
  rw [conclude, halt, settle_eq]

/-- An attempt to send counts, and leaves a deed unless it breaks down. -/
theorem transmit_eq (s : Session) (peer : Nat) (tag : Tag) (payload : Bytes) :
    s.transmit peer tag payload =
      ({ s with
          attempts := s.attempts + 1
          deeds := if (s.faulty s.attempts).isSome then s.deeds
            else s.deeds.push (.sent peer tag payload) },
        s.faulty s.attempts) := by
  cases h : s.faulty s.attempts <;> simp [transmit, record, h]

theorem take?_eq_some {s s' : Session} {peer count : Nat} {tag : Tag} {bytes : Bytes} :
    s.take? peer tag count = some (bytes, s') ↔
      ∃ mailbox, s.mailbox.take? peer tag count = some (bytes, mailbox) ∧
        s' = { s with mailbox, deeds := s.deeds.push (.took peer tag bytes) } := by
  unfold take?
  cases s.mailbox.take? peer tag count with
  | none => simp
  | some taken =>
      obtain ⟨found, mailbox⟩ := taken
      simp only [Option.some.injEq, Prod.mk.injEq, record]
      constructor
      · rintro ⟨rfl, rfl⟩
        exact ⟨mailbox, ⟨rfl, rfl⟩, rfl⟩
      · rintro ⟨_, ⟨rfl, rfl⟩, rfl⟩
        exact ⟨rfl, rfl⟩

theorem take?_eq_none {s : Session} {peer count : Nat} {tag : Tag} :
    s.take? peer tag count = none ↔ (s.mailbox.queue peer tag).length < count := by
  rw [← Mailbox.take?_eq_none]
  unfold take?
  cases s.mailbox.take? peer tag count <;> simp

/-- The receives that are still open among waits address other parties. -/
def Valid (s : Session) (ws : List Wait) : Prop := ∀ r, Wait.pending r ∈ ws → s.isPeer r.peer

/-! ## Acts -/

/-- An act of an engine changes its session. -/
inductive Act : Session → Session → Prop where
  | sent (s : Session) {peer : Nat} (channel : Channel) (bytes : Bytes) (h : s.isPeer peer) :
      Act s
        { s with
          attempts := s.attempts + 1
          deeds := s.deeds.push (.sent peer (.engine channel) bytes) }
  | broke (s : Session) : Act s { s with attempts := s.attempts + 1 }
  | took (s : Session) {r : Receive} {bytes : Bytes} {mailbox : Mailbox} (h : s.isPeer r.peer)
      (htake : s.mailbox.take? r.peer (.engine r.channel) r.count = some (bytes, mailbox)) :
      Act s { s with mailbox, deeds := s.deeds.push (.took r.peer (.engine r.channel) bytes) }
  /-- It addresses an index that is no other party. -/
  | misaddressed (s : Session) (index : Nat) : Act s (s.misaddressed index)
  | noted (s : Session) (entry : Note) : Act s (s.record (.noted entry))
  | kept (s : Session) : Act s { s with kept := true }
  | waits (s : Session) {ws : List Wait} (next : List Received → Engine) (h : s.Valid ws) :
      Act s { s with worker := .waiting ws next }
  | ends (s : Session) (result : EngineResult) : Act s (s.finish result)

/-- A row of acts. -/
abbrev Acts : Session → Session → Prop := Relation.ReflTransGen Act

/-- Acts leave the party and its setup alone. -/
theorem Act.frame {s s' : Session} (h : Act s s') :
    s'.compiled = s.compiled ∧ s'.party = s.party ∧ s'.faulty = s.faulty ∧
      s'.dropped = s.dropped := by
  cases h with
  | misaddressed index =>
      rw [Session.misaddressed, settle_eq]
      exact ⟨rfl, rfl, rfl, rfl⟩
  | ends result =>
      rw [finish_eq, conclude_eq]
      exact ⟨rfl, rfl, rfl, rfl⟩
  | _ => exact ⟨rfl, rfl, rfl, rfl⟩

theorem Acts.frame {s s' : Session} (h : Acts s s') :
    s'.compiled = s.compiled ∧ s'.party = s.party ∧ s'.faulty = s.faulty ∧
      s'.dropped = s.dropped := by
  induction h with
  | refl => exact ⟨rfl, rfl, rfl, rfl⟩
  | tail _ h ih =>
      obtain ⟨hc, hp, hf, hd⟩ := h.frame
      exact ⟨hc.trans ih.1, hp.trans ih.2.1, hf.trans ih.2.2.1, hd.trans ih.2.2.2⟩

theorem Acts.isPeer {s s' : Session} (h : Acts s s') (index : Nat) :
    s'.isPeer index = s.isPeer index := by
  rw [Session.isPeer, h.frame.1, h.frame.2.1, Session.isPeer]

theorem Acts.valid_iff {s s' : Session} (h : Acts s s') {ws : List Wait} :
    s'.Valid ws ↔ s.Valid ws := by
  simp only [Valid, h.isPeer]

theorem Valid.cons {s : Session} {w : Wait} {ws : List Wait}
    (hw : ∀ r, w = .pending r → s.isPeer r.peer) (h : s.Valid ws) : s.Valid (w :: ws) := by
  intro r hr
  rcases List.mem_cons.mp hr with heq | hr
  · exact hw r heq.symm
  · exact h r hr

theorem Valid.tail {s : Session} {w : Wait} {ws : List Wait} (h : s.Valid (w :: ws)) :
    s.Valid ws :=
  fun r hr => h r (List.mem_cons_of_mem _ hr)

/-! ## Runs of engines -/

theorem transmit_acts {s : Session} {peer : Nat} (h : s.isPeer peer) (channel : Channel)
    (bytes : Bytes) : Acts s (s.transmit peer (.engine channel) bytes).1 := by
  rw [transmit_eq]
  cases hfaulty : s.faulty s.attempts with
  | some text => exact .single (.broke s)
  | none => exact .single (.sent s channel bytes h)

theorem take?_acts {s s' : Session} {r : Receive} {bytes : Bytes} (h : s.isPeer r.peer)
    (htake : s.take? r.peer (.engine r.channel) r.count = some (bytes, s')) : Acts s s' := by
  obtain ⟨mailbox, hmailbox, rfl⟩ := take?_eq_some.mp htake
  exact .single (.took s h hmailbox)

theorem openWaits_acts :
    ∀ (rs : List Receive) (s : Session),
      Acts s (openWaits rs s).2 ∧ s.Valid (openWaits rs s).1
  | [], _ => ⟨.refl, fun _ h => absurd h List.not_mem_nil⟩
  | r :: rs, s => by
      rw [openWaits]
      split
      · rename_i hpeer
        obtain ⟨hacts, hvalid⟩ := openWaits_acts rs s
        exact ⟨hacts, hvalid.cons fun q hq => by cases hq; exact hpeer⟩
      · obtain ⟨hacts, hvalid⟩ := openWaits_acts rs (s.misaddressed r.peer)
        have hfirst : Acts s (s.misaddressed r.peer) := .single (.misaddressed s r.peer)
        exact ⟨hfirst.trans hacts, (hfirst.valid_iff.mp hvalid).cons (by simp)⟩

theorem tryWaits_acts :
    ∀ (ws : List Wait) {s : Session}, s.Valid ws →
      Acts s (tryWaits ws s).2 ∧ s.Valid (tryWaits ws s).1
  | [], _, _ => ⟨.refl, fun _ h => absurd h List.not_mem_nil⟩
  | .closed answer :: ws, s, h => by
      obtain ⟨hacts, hvalid⟩ := tryWaits_acts ws h.tail
      exact ⟨hacts, hvalid.cons (by simp)⟩
  | .pending r :: ws, s, h => by
      have hpeer := h r List.mem_cons_self
      rw [tryWaits]
      cases htake : s.take? r.peer (.engine r.channel) r.count with
      | none =>
          obtain ⟨hacts, hvalid⟩ := tryWaits_acts ws h.tail
          exact ⟨hacts, hvalid.cons fun q hq => by cases hq; exact hpeer⟩
      | some taken =>
          obtain ⟨bytes, s'⟩ := taken
          have hfirst : Acts s s' := take?_acts hpeer htake
          obtain ⟨hacts, hvalid⟩ := tryWaits_acts ws (hfirst.valid_iff.mpr h.tail)
          exact ⟨hfirst.trans hacts, (hfirst.valid_iff.mp hvalid).cons (by simp)⟩

/-- A run of an engine is a row of acts. -/
theorem drive_acts : ∀ (e : Engine) (s : Session), Acts s (drive e s) := by
  intro e
  induction e with
  | send peer channel bytes next ih =>
      intro s
      rw [drive]
      split
      · rename_i hpeer
        have hsend := transmit_acts hpeer channel bytes
        generalize s.transmit peer (.engine channel) bytes = sent at hsend ⊢
        obtain ⟨s', fault⟩ := sent
        cases fault with
        | none => exact hsend.trans (ih none s')
        | some text => exact hsend.tail (.ends s' _)
      · exact (Relation.ReflTransGen.single (.misaddressed s peer)).trans (ih _ _)
  | receive requests next ih =>
      intro s
      obtain ⟨hopen, hvalid⟩ := openWaits_acts requests s
      obtain ⟨htry, hleft⟩ := tryWaits_acts _ (hopen.valid_iff.mpr hvalid)
      rw [drive]
      simp only
      split
      · exact (hopen.trans htry).trans (ih _ _)
      · exact (hopen.trans htry).tail (.waits _ _ (htry.valid_iff.mpr hleft))
  | note entry next ih => exact fun s => .head (.noted s entry) (ih _)
  | keep next ih => exact fun s => .head (.kept s) (ih _)
  | finish result => exact fun s => .single (.ends s result)

end Session

end JointCircuit

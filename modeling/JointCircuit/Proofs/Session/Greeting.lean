import JointCircuit.Proofs.Session.Inbox
import Mathlib.Data.List.Nodup

/-!
# The two halves of a handshake

Greeting sends the fingerprint to the peers in turn (`Session.greet_eq`).
Collecting takes the fingerprints that are there.  After it every greeting says
what was taken of its peer (`Session.Hears`), and one that is still open has fewer
bytes in the mailbox than a fingerprint, unless an eager session stopped at a
fingerprint that differs (`Session.collect_left`).
-/

namespace JointCircuit

namespace Session

/-! ## Greeting -/

/-- The deed of greeting a peer. -/
def greetingTo (s : Session) (peer : Nat) : Deed :=
  .sent peer .setup s.compiled.fingerprint.bytes

/-- Greeting sends the fingerprint to the first of the peers, and to all of them unless an
attempt breaks down. -/
theorem greet_eq : ∀ (peers : List Nat) (s : Session), ∃ done attempts, done <+: peers ∧
    (greet peers s).1 =
      { s with attempts, deeds := s.deeds ++ (done.map s.greetingTo).toArray } ∧
    ((greet peers s).2 = true → done = peers)
  | [], s => ⟨[], s.attempts, List.nil_prefix, by simp [greet], fun _ => rfl⟩
  | peer :: peers, s => by
      rw [greet, transmit_eq]
      cases hfaulty : s.faulty s.attempts with
      | some text => exact ⟨[], s.attempts + 1, List.nil_prefix, by simp, by simp⟩
      | none =>
          obtain ⟨done, attempts, hdone, heq, hall⟩ :=
            greet_eq peers
              { s with
                attempts := s.attempts + 1
                deeds := s.deeds.push (.sent peer .setup s.compiled.fingerprint.bytes) }
          simp only [Option.isSome_none, Bool.false_eq_true, if_false]
          refine ⟨peer :: done, attempts, (List.prefix_cons_inj peer).mpr hdone, ?_,
            fun h => congrArg (peer :: ·) (hall h)⟩
          rw [heq]
          simp only [List.map_cons, greetingTo, Session.mk.injEq, true_and, and_true]
          apply Array.ext'
          simp [greetingTo]

/-- All peers are greeted exactly when no attempt breaks down. -/
theorem greet_through : ∀ (peers : List Nat) (s : Session),
    (greet peers s).2 = true ↔ ∀ k < peers.length, s.faulty (s.attempts + k) = none
  | [], _ => ⟨fun _ _ hk => absurd hk (Nat.not_lt_zero _), fun _ => rfl⟩
  | peer :: peers, s => by
      rw [greet, transmit_eq, List.length_cons, Nat.forall_lt_succ_left]
      cases hfirst : s.faulty s.attempts with
      | some text => exact iff_of_false (by simp) fun h => absurd h.1 (by simp)
      | none =>
          simp only [true_and]
          rw [greet_through peers]
          simp only [Nat.add_comm 1, Nat.add_assoc]

/-! ## Collecting -/

/-- A greeting says what was taken of its peer: nothing, or a fingerprint and whether it
matches. -/
def Hears (s : Session) (g : Greeting) : Prop :=
  match g.verdict with
  | none => s.taken g.peer .setup = []
  | some matching => (s.taken g.peer .setup).length = fingerprintSize ∧
      s.compiled.fingerprint.accepts (s.taken g.peer .setup) = matching

theorem Hears.congr {s s' : Session} {g : Greeting} (h : s.Hears g)
    (hcompiled : s'.compiled = s.compiled)
    (htaken : s'.taken g.peer .setup = s.taken g.peer .setup) : s'.Hears g := by
  rw [Hears, htaken, hcompiled]
  exact h

/-- What collecting does. -/
structure Collected (s : Session) (gs : List Greeting) (s' : Session) (gs' : List Greeting) :
    Prop where
  /-- Only the mailbox and the deeds change, and the deeds are those of taking setup bytes. -/
  frame : ∃ mailbox takes, s' = { s with mailbox, deeds := s.deeds ++ takes } ∧
    ∀ d ∈ takes, ∃ peer bytes, d = .took peer .setup bytes
  peers : gs'.map Greeting.peer = gs.map Greeting.peer
  inbox : ∀ peer tag, s'.inbox peer tag = s.inbox peer tag
  /-- Nothing else is taken. -/
  others : ∀ peer tag, (peer ∉ gs.map Greeting.peer ∨ tag ≠ .setup) →
    s'.taken peer tag = s.taken peer tag
  /-- The greetings say what was taken. -/
  hears : (gs.map Greeting.peer).Nodup → (∀ g ∈ gs, s.Hears g) → ∀ g ∈ gs', s'.Hears g

namespace Collected

variable {s s' : Session} {gs gs' : List Greeting}

theorem compiled (h : Collected s gs s' gs') : s'.compiled = s.compiled := by
  obtain ⟨_, _, rfl, _⟩ := h.frame
  rfl

/-- The mailbox keeps what is of no peer that is greeted. -/
theorem queue (h : Collected s gs s' gs') {peer : Nat} (hpeer : peer ∉ gs.map Greeting.peer)
    (tag : Tag) : s'.mailbox.queue peer tag = s.mailbox.queue peer tag := by
  have hinbox := h.inbox peer tag
  rw [Session.inbox, Session.inbox, h.others peer tag (.inl hpeer)] at hinbox
  exact List.append_cancel_left hinbox

theorem refl (s : Session) (gs : List Greeting) : Collected s gs s gs where
  frame := ⟨s.mailbox, #[], by simp, by simp⟩
  peers := rfl
  inbox _ _ := rfl
  others _ _ _ := rfl
  hears _ h := h

/-- A greeting may be passed over. -/
theorem skip (g : Greeting) (h : Collected s gs s' gs') : Collected s (g :: gs) s' (g :: gs') where
  frame := h.frame
  peers := by rw [List.map_cons, h.peers, List.map_cons]
  inbox := h.inbox
  others peer tag hne :=
    h.others peer tag (hne.imp_left fun hp hmem => hp (List.mem_cons_of_mem _ hmem))
  hears hnodup hears := by
    obtain ⟨hg, hnodup⟩ := List.nodup_cons.mp hnodup
    rw [List.forall_mem_cons] at hears ⊢
    exact ⟨hears.1.congr h.compiled (h.others _ _ (.inl hg)), h.hears hnodup hears.2⟩

/-- The fingerprint of an open greeting may be taken. -/
theorem take {g : Greeting} {t : Session} {bytes : Bytes} (hopen : g.verdict = none)
    (htake : s.take? g.peer .setup fingerprintSize = some (bytes, t))
    (h : Collected t gs s' gs') :
    Collected s (g :: gs) s'
      ({ g with verdict := some (s.compiled.fingerprint.accepts bytes) } :: gs') := by
  obtain ⟨mailbox, hmailbox, heq⟩ := take?_eq_some.mp htake
  have htaken := taken_took htake
  have hcompiled : t.compiled = s.compiled := by rw [heq]
  refine ⟨?_, ?_, fun p u => ?_, fun p u hne => ?_, fun hnodup hears => ?_⟩
  · obtain ⟨mailbox', takes, hs', htakes⟩ := h.frame
    refine ⟨mailbox', #[.took g.peer .setup bytes] ++ takes, ?_, ?_⟩
    · rw [hs', heq]
      simp
    · simp only [Array.mem_append, List.mem_toArray, List.mem_singleton]
      rintro d (rfl | hd)
      · exact ⟨g.peer, bytes, rfl⟩
      · exact htakes d hd
  · rw [List.map_cons, h.peers, List.map_cons]
  · rw [h.inbox, inbox_took htake]
  · rw [List.map_cons, List.mem_cons, not_or] at hne
    rw [h.others p u (hne.imp_left And.right), htaken, if_neg]
    rintro ⟨rfl, rfl⟩
    exact hne.elim (fun hp => hp.1 rfl) fun hu => hu rfl
  · obtain ⟨hg, hnodup⟩ := List.nodup_cons.mp hnodup
    rw [List.forall_mem_cons] at hears ⊢
    refine ⟨?_, h.hears hnodup fun q hq => (hears.2 q hq).congr hcompiled ?_⟩
    · have hnone : s.taken g.peer .setup = [] := by
        have := hears.1
        rwa [Hears, hopen] at this
      have hown : s'.taken g.peer .setup = bytes := by
        rw [h.others _ _ (.inl hg), htaken, if_pos ⟨rfl, rfl⟩, hnone, List.nil_append]
      simp only [Hears, hown, h.compiled, hcompiled, and_true]
      exact (Mailbox.queue_take hmailbox).1
    · rw [htaken, if_neg]
      rintro ⟨heq, _⟩
      exact hg (heq ▸ List.mem_map_of_mem hq)

end Collected

theorem collect_collected :
    ∀ (gs : List Greeting) (s : Session), Collected s gs (collect gs s).2 (collect gs s).1
  | [], s => .refl s []
  | g :: gs, s => by
      rw [collect]
      split
      · rename_i hopen
        rw [Greeting.isOpen, beq_iff_eq] at hopen
        cases htake : s.take? g.peer .setup fingerprintSize with
        | none => exact (collect_collected gs s).skip g
        | some taken =>
            obtain ⟨bytes, t⟩ := taken
            simp only
            have hcompiled : t.compiled = s.compiled := by
              obtain ⟨_, _, rfl⟩ := take?_eq_some.mp htake
              rfl
            rw [hcompiled]
            split
            · exact .take hopen htake (.refl t gs)
            · exact .take hopen htake (collect_collected gs t)
      · exact (collect_collected gs s).skip g

/-- A fingerprint that is there is taken, unless an eager session stops at one that
differs. -/
theorem collect_left :
    ∀ {gs : List Greeting} (s : Session), (gs.map Greeting.peer).Nodup →
      (s.isEager = true ∧ ∃ g ∈ (collect gs s).1, g.differs = true) ∨
      ∀ g ∈ (collect gs s).1, g.isOpen = true →
        ((collect gs s).2.mailbox.queue g.peer .setup).length < fingerprintSize
  | [], _, _ => .inr fun _ h => absurd h List.not_mem_nil
  | g :: gs, s, hnodup => by
      obtain ⟨hg, hnodup⟩ := List.nodup_cons.mp hnodup
      -- the greetings behind `g`, once `g` needs nothing more
      have hrest : ∀ (g' : Greeting) (t : Session), t.isEager = s.isEager →
          (g'.isOpen = true →
            ((collect gs t).2.mailbox.queue g'.peer .setup).length < fingerprintSize) →
          (s.isEager = true ∧ ∃ q ∈ g' :: (collect gs t).1, q.differs = true) ∨
          ∀ q ∈ g' :: (collect gs t).1, q.isOpen = true →
            ((collect gs t).2.mailbox.queue q.peer .setup).length < fingerprintSize := by
        intro g' t heager hg'
        rcases collect_left t hnodup with ⟨hfast, q, hq, hdiffers⟩ | hleft
        · exact .inl ⟨heager ▸ hfast, q, List.mem_cons_of_mem _ hq, hdiffers⟩
        · exact .inr (List.forall_mem_cons.mpr ⟨hg', hleft⟩)
      rw [collect]
      split
      · rename_i hopen
        cases htake : s.take? g.peer .setup fingerprintSize with
        | none =>
            refine hrest g s rfl fun _ => ?_
            rw [(collect_collected gs s).queue hg]
            exact take?_eq_none.mp htake
        | some taken =>
            obtain ⟨bytes, t⟩ := taken
            have heager : t.isEager = s.isEager := by
              obtain ⟨_, _, rfl⟩ := take?_eq_some.mp htake
              rfl
            simp only
            split
            · rename_i hstop
              rw [Bool.and_eq_true] at hstop
              exact .inl ⟨heager ▸ hstop.1, _, List.mem_cons_self, hstop.2⟩
            · exact hrest _ t heager (by simp [Greeting.isOpen])
      · rename_i hclosed
        exact hrest g s rfl fun hopen => absurd hopen hclosed

end Session

end JointCircuit

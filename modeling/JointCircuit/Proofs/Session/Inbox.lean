import JointCircuit.Proofs.Session.Acts

/-!
# What a session received

The *inbox* of a peer and tag is what the session took of them so far followed by
what is still in the mailbox.  Nothing that the worker or an engine does changes an
inbox: bytes only go from the mailbox to what was taken.  An accepted message makes
the inbox of its peer and tag longer, and no other event changes any.

So along every history an inbox is the row of the payloads that were accepted
(`Session.inbox_steps`).
-/

namespace JointCircuit

/-- The bytes of a peer and tag that were taken, among deeds. -/
def takenAmong (ds : List Deed) (peer : Nat) (tag : Tag) : Bytes :=
  ds.flatMap fun
    | .took p t bytes => if p = peer ∧ t = tag then bytes else []
    | _ => []

theorem takenAmong_append (ds es : List Deed) (peer : Nat) (tag : Tag) :
    takenAmong (ds ++ es) peer tag = takenAmong ds peer tag ++ takenAmong es peer tag :=
  List.flatMap_append

theorem takenAmong_took (p : Nat) (t : Tag) (bytes : Bytes) (peer : Nat) (tag : Tag) :
    takenAmong [.took p t bytes] peer tag = if p = peer ∧ t = tag then bytes else [] := by
  simp [takenAmong]

namespace Session

/-- The bytes of a peer and tag that the session took. -/
def taken (s : Session) (peer : Nat) (tag : Tag) : Bytes := takenAmong s.deeds.toList peer tag

/-- The bytes of a peer and tag that the session has got. -/
def inbox (s : Session) (peer : Nat) (tag : Tag) : Bytes :=
  s.taken peer tag ++ s.mailbox.queue peer tag

theorem taken_front (s : Session) (peer : Nat) (tag : Tag) :
    s.taken peer tag <+: s.inbox peer tag :=
  List.prefix_append _ _

/-! ## The inbox along a run -/

/-- Taking moves bytes from the mailbox to what was taken, of one peer and tag. -/
theorem taken_took {s s' : Session} {p count : Nat} {t : Tag} {bytes : Bytes}
    (h : s.take? p t count = some (bytes, s')) (peer : Nat) (tag : Tag) :
    s'.taken peer tag =
      if peer = p ∧ tag = t then s.taken peer tag ++ bytes else s.taken peer tag := by
  obtain ⟨mailbox, _, rfl⟩ := take?_eq_some.mp h
  simp only [taken, Array.toList_push, takenAmong_append, takenAmong_took, eq_comm (a := p),
    eq_comm (a := t)]
  split <;> simp

theorem inbox_took {s s' : Session} {p count : Nat} {t : Tag} {bytes : Bytes}
    (h : s.take? p t count = some (bytes, s')) (peer : Nat) (tag : Tag) :
    s'.inbox peer tag = s.inbox peer tag := by
  rw [inbox, taken_took h]
  obtain ⟨mailbox, hmailbox, rfl⟩ := take?_eq_some.mp h
  obtain ⟨_, hown, hother⟩ := Mailbox.queue_take hmailbox
  simp only [inbox]
  split
  · rename_i heq
    obtain ⟨rfl, rfl⟩ := heq
    rw [hown, List.append_assoc]
  · rename_i hne
    rw [hother peer tag hne]

theorem taken_push {s s' : Session} {d : Deed} (hdeeds : s'.deeds = s.deeds.push d)
    (hd : ∀ p t, takenAmong [d] p t = []) (peer : Nat) (tag : Tag) :
    s'.taken peer tag = s.taken peer tag := by
  rw [taken, hdeeds, Array.toList_push, takenAmong_append, hd, List.append_nil, taken]

theorem Act.inbox_eq {s s' : Session} (h : Act s s') (peer : Nat) (tag : Tag) :
    s'.inbox peer tag = s.inbox peer tag := by
  cases h with
  | sent channel bytes h =>
      rw [inbox, taken_push rfl fun _ _ => rfl]
      rfl
  | took h htake =>
      exact inbox_took (take?_eq_some.mpr ⟨_, htake, rfl⟩) peer tag
  | misaddressed index =>
      rw [Session.misaddressed, settle_eq]
      rfl
  | noted entry =>
      rw [inbox, taken_push rfl fun _ _ => rfl]
      rfl
  | ends result =>
      rw [finish_eq, conclude_eq]
      rfl
  | _ => rfl

theorem Acts.inbox_eq {s s' : Session} (h : Acts s s') (peer : Nat) (tag : Tag) :
    s'.inbox peer tag = s.inbox peer tag := by
  induction h with
  | refl => rfl
  | tail _ h ih => exact (h.inbox_eq peer tag).trans ih

/-! ## Messages -/

/-- A message is accepted when it comes from another party and starts with a tag.  Its
payload goes to the mailbox. -/
theorem accept_eq_ok {s s' : Session} {name : String} {bytes : Bytes} :
    s.accept name bytes = .ok s' ↔
      ∃ peer b payload tag, s.peerNamed? name = some peer ∧ bytes = b :: payload ∧
        Tag.ofByte? b = some tag ∧ s' = { s with mailbox := s.mailbox.push peer tag payload } := by
  rw [accept]
  constructor
  · intro h
    split at h
    · cases h
    · rename_i peer hpeer
      split at h
      · cases h
      · rename_i b payload
        split at h
        · cases h
        · rename_i tag htag
          cases h
          exact ⟨peer, b, payload, tag, hpeer, rfl, htag, rfl⟩
  · rintro ⟨peer, b, payload, tag, hpeer, rfl, htag, rfl⟩
    simp only [hpeer, htag]

theorem inbox_push (s : Session) (p : Nat) (t : Tag) (payload : Bytes) (peer : Nat) (tag : Tag) :
    ({ s with mailbox := s.mailbox.push p t payload } : Session).inbox peer tag =
      s.inbox peer tag ++ if peer = p ∧ tag = t then payload else [] := by
  simp only [inbox, Mailbox.queue_push]
  split
  · exact (List.append_assoc _ _ _).symm
  · exact (List.append_nil _).symm

end Session

end JointCircuit

import JointCircuit.IndexMap

/-!
# Channels and mailboxes

Every message between two parties starts with a tag byte, which says whether the
rest belongs to the setup or to one of the two channels of the engine.  What is
received is queued per peer and tag.  A receive takes an exact number of bytes
off the front of a queue, or nothing as long as there are fewer, so the cuts
between messages cannot be seen.

`queue_push` and `queue_take` say what the two operations do to every queue.
-/

namespace JointCircuit

/-- A row of bytes. -/
abbrev Bytes := List UInt8

/-- A channel of the engine. -/
inductive Channel where
  | a
  | b
deriving DecidableEq, Repr, Inhabited

/-- What a message belongs to. -/
inductive Tag where
  | setup
  | engine (channel : Channel)
deriving DecidableEq, Repr, Inhabited

namespace Tag

/-- The number of a tag. -/
def index : Tag → Nat
  | .setup => 0
  | .engine .a => 1
  | .engine .b => 2

/-- The byte of a tag. -/
def byte (t : Tag) : UInt8 := UInt8.ofNat t.index

/-- The tag of a byte. -/
def ofByte? (b : UInt8) : Option Tag :=
  if b = 0 then some .setup
  else if b = 1 then some (.engine .a)
  else if b = 2 then some (.engine .b)
  else none

theorem ofByte?_byte (t : Tag) : ofByte? t.byte = some t := by
  rcases t with _ | ⟨_ | _⟩ <;> rfl

theorem index_lt (t : Tag) : t.index < 3 := by
  rcases t with _ | ⟨_ | _⟩ <;> decide

theorem index_inj {s t : Tag} (h : s.index = t.index) : s = t := by
  rcases s with _ | ⟨_ | _⟩ <;> rcases t with _ | ⟨_ | _⟩ <;> first | rfl | cases h

end Tag

/-- The bytes received and not yet taken, by peer and tag. -/
structure Mailbox where
  /-- The queues, three to a peer. -/
  queues : IndexMap Bytes

namespace Mailbox

/-- The mailbox with all queues empty. -/
def empty : Mailbox := ⟨IndexMap.empty⟩

/-- The place of a queue. -/
def place (peer : Nat) (tag : Tag) : Nat := 3 * peer + tag.index

/-- The queue of a peer and tag. -/
def queue (m : Mailbox) (peer : Nat) (tag : Tag) : Bytes :=
  (m.queues.get? (place peer tag)).getD []

/-- Put bytes at the end of a queue. -/
def push (m : Mailbox) (peer : Nat) (tag : Tag) (bytes : Bytes) : Mailbox :=
  ⟨m.queues.set (place peer tag) (m.queue peer tag ++ bytes)⟩

/-- Take bytes off the front of a queue, if there are enough. -/
def take? (m : Mailbox) (peer : Nat) (tag : Tag) (count : Nat) : Option (Bytes × Mailbox) :=
  let bytes := m.queue peer tag
  if count ≤ bytes.length then
    some (bytes.take count, ⟨m.queues.set (place peer tag) (bytes.drop count)⟩)
  else none

/-! ## The queues after an operation -/

theorem place_inj {p q : Nat} {s t : Tag} (h : place p s = place q t) : p = q ∧ s = t := by
  have hs := s.index_lt
  have ht := t.index_lt
  simp only [place] at h
  exact ⟨by omega, Tag.index_inj (by omega)⟩

@[simp] theorem queue_empty (p : Nat) (t : Tag) : empty.queue p t = [] := by
  simp [empty, queue]

theorem queue_set (m : Mailbox) (p : Nat) (t : Tag) (bytes : Bytes) (q : Nat) (u : Tag) :
    Mailbox.queue ⟨m.queues.set (place p t) bytes⟩ q u =
      if q = p ∧ u = t then bytes else m.queue q u := by
  by_cases h : q = p ∧ u = t
  · obtain ⟨rfl, rfl⟩ := h
    simp [queue]
  · have hne : place q u ≠ place p t := fun e => h (place_inj e)
    simp [queue, hne, h]

/-- A message makes its own queue longer and leaves the others alone. -/
theorem queue_push (m : Mailbox) (p : Nat) (t : Tag) (bytes : Bytes) (q : Nat) (u : Tag) :
    (m.push p t bytes).queue q u =
      if q = p ∧ u = t then m.queue q u ++ bytes else m.queue q u := by
  rw [push, queue_set]
  by_cases h : q = p ∧ u = t
  · obtain ⟨rfl, rfl⟩ := h
    simp
  · simp [h]

/-- A receive takes as many bytes as it asks for off the front of its own queue and
leaves the others alone. -/
theorem queue_take {m m' : Mailbox} {p : Nat} {t : Tag} {count : Nat} {bytes : Bytes}
    (h : m.take? p t count = some (bytes, m')) :
    bytes.length = count ∧ m.queue p t = bytes ++ m'.queue p t ∧
      ∀ q u, ¬ (q = p ∧ u = t) → m'.queue q u = m.queue q u := by
  simp only [take?] at h
  split at h
  · rename_i hle
    cases h
    refine ⟨by simp [hle], ?_, fun q u hne => ?_⟩
    · rw [queue_set, if_pos ⟨rfl, rfl⟩, List.take_append_drop]
    · rw [queue_set, if_neg hne]
  · cases h

/-- A receive takes nothing exactly when fewer bytes are queued than it asks for. -/
theorem take?_eq_none {m : Mailbox} {p : Nat} {t : Tag} {count : Nat} :
    m.take? p t count = none ↔ (m.queue p t).length < count := by
  simp only [take?]
  split
  · rename_i hle
    exact iff_of_false nofun (Nat.not_lt.mpr hle)
  · rename_i hlt
    exact iff_of_true rfl (Nat.lt_of_not_le hlt)

end Mailbox

end JointCircuit

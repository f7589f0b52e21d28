import JointCircuit.Proofs.Session.History
import JointCircuit.Session.Plaintext

/-!
# Runs of the plaintext engine

Without faults of the transport the plaintext engine only sends and receives.  A row of
sends to other parties goes through as a whole (`Session.drive_sendAll`).  A receive takes
its bytes if they are there and otherwise waits for them (`Session.drive_receiveOne`), and
a session that waits for one receive goes on in the same way (`Session.run_receiveOne`).
One that is the same after a run misses bytes (`Session.queue_lt_of_run_eq`).
-/

namespace JointCircuit

namespace Plaintext

theorem ofBytes_toBytes (bits : List Bool) : ofBytes (toBytes bits) = bits := by
  rw [ofBytes, toBytes, List.map_map]
  exact (List.map_congr_left fun b _ => by cases b <;> rfl).trans (List.map_id _)

@[simp] theorem length_toBytes (bits : List Bool) : (toBytes bits).length = bits.length :=
  List.length_map _

theorem toBytes_append (bits more : List Bool) :
    toBytes (bits ++ more) = toBytes bits ++ toBytes more :=
  List.map_append

/-- What the plaintext engine does with the answer to its only receive. -/
def onAnswer (next : Bytes → Engine) : List Received → Engine
  | [.ok bytes] => next bytes
  | [.error e] => .finish (.failed e.message)
  | _ => .finish (.returned [])

theorem receiveOne_eq (peer : Nat) (channel : Channel) (count : Nat) (next : Bytes → Engine) :
    receiveOne peer channel count next = .receive [⟨peer, channel, count⟩] (onAnswer next) :=
  rfl

end Plaintext

namespace Session

open Plaintext

/-- The deeds of sending messages on a channel. -/
def sendDeeds (channel : Channel) (messages : List (Nat × Bytes)) : List Deed :=
  messages.map fun m => .sent m.1 (.engine channel) m.2

/-- Messages to other parties are all sent. -/
theorem drive_sendAll (channel : Channel) (next : Engine) :
    ∀ (messages : List (Nat × Bytes)) (s : Session), (∀ m ∈ messages, s.isPeer m.1 = true) →
      (∀ k, s.faulty k = none) →
      drive (sendAll channel messages next) s =
        drive next
          { s with
            attempts := s.attempts + messages.length
            deeds := s.deeds ++ (sendDeeds channel messages).toArray }
  | [], s, _, _ => by
      rw [sendAll]
      congr 1
  | m :: messages, s, hpeers, hfaulty => by
      rw [List.forall_mem_cons] at hpeers
      rw [sendAll, drive, if_pos hpeers.1, transmit_eq, hfaulty]
      simp only
      refine Eq.trans (drive_sendAll channel next messages _ ?_ ?_) ?_
      · exact hpeers.2
      · exact hfaulty
      · congr 1
        simp only [Session.mk.injEq, true_and, and_true, List.length_cons]
        refine ⟨by omega, ?_⟩
        apply Array.ext'
        simp [sendDeeds]

/-- A receive from a peer takes its bytes, or waits for them. -/
theorem drive_receiveOne {s : Session} {peer : Nat} (hpeer : s.isPeer peer = true)
    (channel : Channel) (count : Nat) (next : Bytes → Engine) :
    drive (receiveOne peer channel count next) s =
      match s.take? peer (.engine channel) count with
      | some (bytes, s') => drive (next bytes) s'
      | none =>
          { s with worker := .waiting [.pending ⟨peer, channel, count⟩] (onAnswer next) } := by
  rw [receiveOne_eq, drive]
  simp only [openWaits, hpeer, if_true, tryWaits]
  cases s.take? peer (.engine channel) count with
  | none => rfl
  | some taken => rfl

/-- A session that waits for one receive goes on like one that asks for it now. -/
theorem run_receiveOne {s : Session} {peer count : Nat} {channel : Channel}
    {next : Bytes → Engine}
    (hworker : s.worker = .waiting [.pending ⟨peer, channel, count⟩] (onAnswer next))
    (hpeer : s.isPeer peer = true) : s.run = drive (receiveOne peer channel count next) s := by
  rw [drive_receiveOne hpeer, run, hworker]
  simp only [tryWaits]
  cases s.take? peer (.engine channel) count with
  | none => rfl
  | some taken => rfl

/-- A session that a run does not change misses bytes that it waits for. -/
theorem queue_lt_of_run_eq {s : Session} {peer count : Nat} {channel : Channel}
    {next : Bytes → Engine}
    (hworker : s.worker = .waiting [.pending ⟨peer, channel, count⟩] (onAnswer next))
    (hpeer : s.isPeer peer = true) (hrun : s.run = s) :
    (s.mailbox.queue peer (.engine channel)).length < count := by
  rw [run_receiveOne hworker hpeer, drive_receiveOne hpeer] at hrun
  cases htake : s.take? peer (.engine channel) count with
  | none => exact take?_eq_none.mp htake
  | some taken =>
      -- what was taken is a deed, and deeds stay
      obtain ⟨bytes, t⟩ := taken
      rw [htake] at hrun
      obtain ⟨mailbox, _, ht⟩ := take?_eq_some.mp htake
      obtain ⟨ds, hds, _⟩ := (drive_acts (next bytes) t).keeps.deeds
      simp only at hrun
      rw [hrun, ht, Array.toList_push] at hds
      have hlen := congrArg List.length hds
      simp only [List.length_append, List.length_singleton] at hlen
      omega

end Session

end JointCircuit

import JointCircuit.Lowering.Layout
import JointCircuit.Proofs.Sequence
import Mathlib.Algebra.GroupWithZero.Nat

/-!
# Guarded computations

Some operations have no result for some of their operands: an element beyond the end of
a row, the value of a name a table does not have, a sum or a difference that is no word, a
shift by all places of an integer.
The computations of this library give such an operation a harmless value or avoid it, so
they do not show that it is never asked for.

A *guarded* computation asks before every such operation.  It ends in one of three ways:
with a result, with a refusal, which is an error it reports, or with a `Breakdown`, which
says what it was asked for.  `refuse` takes a plain computation for a guarded one that
cannot break down.

A guarded twin of a plain computation is proved equal to `refuse` of it, step by step
(`bind_eq_refuse`).  Such an equation says two things: the twin computes the same, and
every operation it guards is within its bounds.
-/

namespace JointCircuit

/-- What an operation was asked for that it cannot give. -/
inductive Breakdown where
  | unknownName (name : String)
  | outOfRange (index length : Nat)
  /-- A sum above the greatest word. -/
  | overflow (sum : Nat)
  | underflow (minuend subtrahend : Nat)
  /-- A shift of an integer by at least as many places as it has bits. -/
  | farShift (bits places : Nat)
deriving DecidableEq, Repr

/-- Why a guarded computation ended without a result. -/
inductive Halt (ε : Type) where
  | refused (e : ε)
  | broken (b : Breakdown)
deriving DecidableEq, Repr

/-- A computation that breaks down when an operation is asked for what it cannot give. -/
abbrev Guarded (ε α : Type) := Except (Halt ε) α

variable {α β δ ε : Type}

/-- The refusal with its error changed by `f`. -/
def Halt.map (f : δ → ε) : Halt δ → Halt ε
  | .refused e => .refused (f e)
  | .broken b => .broken b

/-- A computation that asks for nothing out of bounds. -/
def refuse (x : Except ε α) : Guarded ε α := x.mapError .refused

@[simp] theorem refuse_ok (a : α) : refuse (.ok a : Except ε α) = .ok a := rfl

theorem refuse_mapError (f : δ → ε) (x : Except δ α) :
    refuse (x.mapError f) = (refuse x).mapError (Halt.map f) := by
  cases x <;> rfl

/-- A guarded sequence agrees with a plain one when its first step does, and its second
step on what the first one gives. -/
theorem bind_eq_refuse {y : Guarded ε α} {x : Except ε α} {f : α → Guarded ε β}
    {g : α → Except ε β} (hfirst : y = refuse x) (hthen : ∀ a, x = .ok a → f a = refuse (g a)) :
    (y >>= f) = refuse (x >>= g) := by
  rw [hfirst]
  cases x with
  | error e => rfl
  | ok a => exact hthen a rfl

namespace Guarded

/-! ## Operations -/

/-- The value of a name that has to be in the table. -/
def lookUp (t : NameTable α) (name : String) : Guarded ε α :=
  match t.find? name with
  | some v => .ok v
  | none => .error (.broken (.unknownName name))

/-- The element at an index that has to be in the row. -/
def pick (xs : List α) (i : Nat) : Guarded ε α :=
  match xs[i]? with
  | some x => .ok x
  | none => .error (.broken (.outOfRange i xs.length))

/-- The elements from an index on, which may be the end of the row. -/
def pickFrom (xs : List α) (i : Nat) : Guarded ε (List α) :=
  if i ≤ xs.length then .ok (xs.drop i) else .error (.broken (.outOfRange i xs.length))

/-- An index has to be below a length. -/
def within (i length : Nat) : Guarded ε Unit :=
  if i < length then .ok () else .error (.broken (.outOfRange i length))

/-- A value has to be a word. -/
def word (n : Nat) : Guarded ε Nat :=
  if n ≤ maxIndex then .ok n else .error (.broken (.overflow n))

/-- A sum that has to be a word. -/
def add (a b : Nat) : Guarded ε Nat := word (a + b)

/-- A sum of a row, added up from its first element on. -/
def total (ns : List Nat) : Guarded ε Nat := ns.foldlM add 0

/-- A difference that has to be a natural. -/
def minus (a b : Nat) : Guarded ε Nat :=
  if b ≤ a then .ok (a - b) else .error (.broken (.underflow a b))

/-- A shift of an integer, its sign coming in from above. -/
def shiftRight {bits : Nat} (v : BitVec bits) (places : Nat) : Guarded ε (BitVec bits) :=
  if places < bits then .ok (v.sshiftRight places) else .error (.broken (.farShift bits places))

variable {t : NameTable α} {name : String} {xs : List α} {i length a b : Nat}

theorem lookUp_eq {v : α} (h : t.find? name = some v) :
    (lookUp t name : Guarded ε α) = .ok v := by
  rw [lookUp, h]

theorem pick_eq {x : α} (h : xs[i]? = some x) : (pick xs i : Guarded ε α) = .ok x := by
  rw [pick, h]

/-- An element of the row is the one that a look-up with a default gives. -/
theorem pick_eq_getD {d : α} (h : i < xs.length) :
    (pick xs i : Guarded ε α) = .ok (xs.getD i d) := by
  refine pick_eq ?_
  rw [List.getD_eq_getElem?_getD, List.getElem?_eq_getElem h, Option.getD_some]

theorem within_eq (h : i < length) : (within i length : Guarded ε Unit) = .ok () := if_pos h

theorem word_eq (h : a ≤ maxIndex) : (word a : Guarded ε Nat) = .ok a := if_pos h

theorem add_eq (h : a + b ≤ maxIndex) : (add a b : Guarded ε Nat) = .ok (a + b) := word_eq h

theorem minus_eq (h : b ≤ a) : (minus a b : Guarded ε Nat) = .ok (a - b) := if_pos h

theorem shiftRight_eq {bits places : Nat} {v : BitVec bits} (h : places < bits) :
    (shiftRight v places : Guarded ε _) = .ok (v.sshiftRight places) := if_pos h

theorem foldlM_add_eq :
    ∀ {ns : List Nat} {a : Nat}, a + ns.sum ≤ maxIndex →
      (ns.foldlM add a : Guarded ε Nat) = .ok (a + ns.sum)
  | [], _, _ => rfl
  | n :: ns, a, h => by
      rw [List.sum_cons, ← Nat.add_assoc] at h ⊢
      rw [List.foldlM_cons, add_eq (Nat.le_trans (Nat.le_add_right _ _) h), ok_bind]
      exact foldlM_add_eq h

theorem total_eq {ns : List Nat} (h : ns.sum ≤ maxIndex) :
    (total ns : Guarded ε Nat) = .ok (ns.sum) := by
  rw [← Nat.zero_add (ns.sum)] at h ⊢
  exact foldlM_add_eq h

/-! ## Rows -/

/-- A step that succeeds on every element succeeds on the row. -/
theorem mapM_eq {f : α → Guarded ε β} {g : α → β} :
    ∀ {xs : List α}, (∀ x ∈ xs, f x = .ok (g x)) → xs.mapM f = .ok (xs.map g)
  | [], _ => rfl
  | x :: xs, h => by
      rw [List.forall_mem_cons] at h
      rw [List.mapM_cons, h.1, ok_bind, mapM_eq h.2]
      rfl

/-- A check that passes on every element passes on the row. -/
theorem forM_eq {f : α → Guarded ε Unit} :
    ∀ {xs : List α}, (∀ x ∈ xs, f x = .ok ()) → forM xs f = .ok ()
  | [], _ => rfl
  | x :: xs, h => by
      rw [List.forall_mem_cons] at h
      rw [List.forM_cons, h.1, ok_bind, forM_eq h.2]

/-! ## Places in a text -/

/-- A refusal placed at a line. -/
def atLine (line : Nat) (x : Guarded CircuitFault α) : Guarded FormatError α :=
  x.mapError (Halt.map (FormatError.mk line))

theorem atLine_refuse (line : Nat) (x : Except CircuitFault α) :
    atLine line (refuse x) = refuse (Netlist.atLine line x) := by
  cases x <;> rfl

end Guarded

end JointCircuit

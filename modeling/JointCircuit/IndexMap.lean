import Std.Data.TreeMap

/-!
# Index maps

A map from finitely many indices to values.  Wires, memories and mailboxes are
kept in index maps, because a circuit may announce far more wires than its gates
touch.

`get?_set` says what a write does to every read.  Together with `get?_empty` it
is all that the rest of the library uses.
-/

namespace JointCircuit

/-- A finite map from indices to values. -/
structure IndexMap (α : Type) where
  tree : Std.TreeMap Nat α

namespace IndexMap

variable {α β : Type}

/-- The map without entries. -/
def empty : IndexMap α := ⟨∅⟩

/-- The value at an index. -/
def get? (m : IndexMap α) (i : Nat) : Option α := m.tree[i]?

/-- Write a value at an index. -/
def set (m : IndexMap α) (i : Nat) (v : α) : IndexMap α := ⟨m.tree.insert i v⟩

/-- The map with every value changed by `f`. -/
def map (f : α → β) (m : IndexMap α) : IndexMap β := ⟨m.tree.map fun _ v => f v⟩

@[simp] theorem get?_empty (i : Nat) : (empty : IndexMap α).get? i = none := by
  simp [empty, get?]

/-- A read after a write sees the value written, and at another index what was
there before. -/
@[simp] theorem get?_set (m : IndexMap α) (i : Nat) (v : α) (j : Nat) :
    (m.set i v).get? j = if j = i then some v else m.get? j := by
  simp only [get?, set, Std.TreeMap.getElem?_insert, Nat.compare_eq_eq]
  by_cases h : j = i
  · simp [h]
  · simp [h, Ne.symm h]

@[simp] theorem get?_map (f : α → β) (m : IndexMap α) (i : Nat) :
    (m.map f).get? i = (m.get? i).map f := by
  simp [get?, map]

/-- Write a row of values at successive indices. -/
def setRow (m : IndexMap α) : Nat → List α → IndexMap α
  | _, [] => m
  | i, v :: vs => (m.set i v).setRow (i + 1) vs

theorem get?_setRow (m : IndexMap α) (i : Nat) (vs : List α) (j : Nat) :
    (m.setRow i vs).get? j = if i ≤ j then (vs[j - i]?).or (m.get? j) else m.get? j := by
  induction vs generalizing m i with
  | nil => simp [setRow]
  | cons v vs ih =>
    rw [setRow, ih, get?_set]
    by_cases h : j = i
    · subst h
      simp [Nat.not_le.mpr (Nat.lt_succ_self j)]
    · by_cases hle : i ≤ j
      · have hsucc : i + 1 ≤ j := by omega
        have hsub : j - i = (j - (i + 1)) + 1 := by omega
        simp [hle, hsucc, h, hsub]
      · have hsucc : ¬ i + 1 ≤ j := by omega
        simp [hle, hsucc, h]

end IndexMap

/-! ## Memories -/

/-- The bits on the wires of a circuit.  A wire nothing was written to is unset. -/
abbrev Memory := IndexMap Bool

/-- The bit on a wire. -/
def Memory.read (m : Memory) (wire : Nat) : Bool := (m.get? wire).getD false

/-- The memory with the bits given on the first wires. -/
def Memory.ofBits (bits : List Bool) : Memory := IndexMap.empty.setRow 0 bits

/-- The bits on `count` wires from `first` on. -/
def Memory.block (m : Memory) (first count : Nat) : List Bool :=
  (List.range' first count).map m.read

@[simp] theorem Memory.read_empty (w : Nat) : Memory.read (IndexMap.empty : Memory) w = false := by
  simp [Memory.read]

@[simp] theorem Memory.read_set (m : Memory) (z : Nat) (b : Bool) (w : Nat) :
    Memory.read (m.set z b) w = if w = z then b else Memory.read m w := by
  by_cases h : w = z <;> simp [Memory.read, h]

theorem Memory.read_ofBits (bits : List Bool) (w : Nat) :
    (Memory.ofBits bits).read w = bits.getD w false := by
  simp [Memory.read, Memory.ofBits, IndexMap.get?_setRow]

@[simp] theorem Memory.length_block (m : Memory) (first count : Nat) :
    (m.block first count).length = count := by
  simp [Memory.block]

end JointCircuit

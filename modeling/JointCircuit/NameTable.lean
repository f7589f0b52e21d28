/-!
# Name tables

A name table gives every name at most one value.  It holds its entries in the
order of the names, which is the order of their code points and so of their
UTF-8 bytes.  Each name stands once.  So two tables with the same entries are
equal, the order in which a table was filled cannot be seen, and a walk over a
table meets the smallest names first.

`find?_insert` says what an insertion does to every look-up.
-/

namespace JointCircuit

/-- A finite map from names, its entries in the order of the names. -/
structure NameTable (α : Type) where
  entries : List (String × α)
  sorted : entries.Pairwise fun a b => a.1 < b.1

namespace NameTable

variable {α β : Type}

/-! ## Insertion into a sorted row of entries -/

/-- Put an entry at its place, in the stead of one with the same name. -/
def insertEntry (k : String) (v : α) : List (String × α) → List (String × α)
  | [] => [(k, v)]
  | (k', v') :: es =>
      if k < k' then (k, v) :: (k', v') :: es
      else if k = k' then (k, v) :: es
      else (k', v') :: insertEntry k v es

theorem mem_insertEntry {k : String} {v : α} {e : String × α} :
    ∀ {es : List (String × α)}, e ∈ insertEntry k v es → e = (k, v) ∨ e ∈ es
  | [], h => by simpa [insertEntry] using h
  | (k', v') :: es, h => by
      unfold insertEntry at h
      split at h
      · simpa using h
      · split at h
        · rcases List.mem_cons.mp h with h | h
          · exact Or.inl h
          · exact Or.inr (List.mem_cons_of_mem _ h)
        · rcases List.mem_cons.mp h with h | h
          · exact Or.inr (h ▸ List.mem_cons_self ..)
          · rcases mem_insertEntry h with h | h
            · exact Or.inl h
            · exact Or.inr (List.mem_cons_of_mem _ h)

theorem lt_of_not_lt_of_ne {a b : String} (h : ¬ a < b) (hne : a ≠ b) : b < a := by
  apply Decidable.byContradiction
  intro hb
  exact hne (String.le_antisymm (String.not_lt.mp hb) (String.not_lt.mp h))

theorem sorted_insertEntry (k : String) (v : α) :
    ∀ {es : List (String × α)}, es.Pairwise (fun a b => a.1 < b.1) →
      (insertEntry k v es).Pairwise fun a b => a.1 < b.1
  | [], _ => by simp [insertEntry]
  | (k', v') :: es, h => by
      have htail := (List.pairwise_cons.mp h).2
      have hhead := (List.pairwise_cons.mp h).1
      unfold insertEntry
      split
      · rename_i hlt
        refine List.pairwise_cons.mpr ⟨fun e he => ?_, h⟩
        rcases List.mem_cons.mp he with rfl | he
        · exact hlt
        · exact String.lt_trans hlt (hhead e he)
      · rename_i hnlt
        split
        · rename_i heq
          subst heq
          exact List.pairwise_cons.mpr ⟨hhead, htail⟩
        · rename_i hne
          refine List.pairwise_cons.mpr ⟨fun e he => ?_, sorted_insertEntry k v htail⟩
          rcases mem_insertEntry he with rfl | he
          · exact lt_of_not_lt_of_ne hnlt hne
          · exact hhead e he

/-! ## Tables -/

/-- The table without names. -/
def empty : NameTable α := ⟨[], List.Pairwise.nil⟩

/-- Give a name a value, in the stead of the one it may have. -/
def insert (t : NameTable α) (k : String) (v : α) : NameTable α :=
  ⟨insertEntry k v t.entries, sorted_insertEntry k v t.sorted⟩

/-- The table of a row of entries, of which the last one of a name counts. -/
def ofList (es : List (String × α)) : NameTable α :=
  es.foldl (fun t e => t.insert e.1 e.2) empty

/-- The names, smallest first. -/
def keys (t : NameTable α) : List String := t.entries.map Prod.fst

/-- The values, in the order of their names. -/
def values (t : NameTable α) : List α := t.entries.map Prod.snd

/-- The number of names. -/
def size (t : NameTable α) : Nat := t.entries.length

/-- The value of a name. -/
def find? (t : NameTable α) (k : String) : Option α := t.entries.lookup k

/-- Decide whether the table has a name. -/
def contains (t : NameTable α) (k : String) : Bool := t.keys.contains k

/-- The table of the names that pass a test. -/
def restrict (t : NameTable α) (p : String → Bool) : NameTable α :=
  ⟨t.entries.filter fun e => p e.1, t.sorted.filter _⟩

/-- The table with every value changed by `f`. -/
def map (f : α → β) (t : NameTable α) : NameTable β :=
  ⟨t.entries.map fun e => (e.1, f e.2), List.pairwise_map.mpr t.sorted⟩

instance [DecidableEq α] : DecidableEq (NameTable α) := fun s t =>
  if h : s.entries = t.entries then
    isTrue (by cases s; cases t; cases h; rfl)
  else isFalse fun e => h (congrArg entries e)

/-! ## Look-ups -/

theorem lookup_insertEntry (k : String) (v : α) (x : String) :
    ∀ es : List (String × α),
      (insertEntry k v es).lookup x = if x = k then some v else es.lookup x
  | [] => by
      by_cases h : x = k
      · simp [insertEntry, h]
      · rw [insertEntry, List.lookup_cons, beq_false_of_ne h, if_neg h]
  | (k', v') :: es => by
      unfold insertEntry
      split
      · by_cases h : x = k
        · simp [h]
        · rw [List.lookup_cons, beq_false_of_ne h]
          simp [h]
      · split
        · rename_i heq
          subst heq
          by_cases h : x = k
          · simp [h]
          · simp [List.lookup_cons, beq_false_of_ne h, h]
        · rename_i hne
          by_cases hx : x = k'
          · subst hx
            simp [Ne.symm hne]
          · rw [List.lookup_cons, beq_false_of_ne hx, lookup_insertEntry k v x es,
              List.lookup_cons, beq_false_of_ne hx]

/-- After an insertion its name has its value and every other name the one it had. -/
@[simp] theorem find?_insert (t : NameTable α) (k : String) (v : α) (x : String) :
    (t.insert k v).find? x = if x = k then some v else t.find? x :=
  lookup_insertEntry k v x t.entries

end NameTable

end JointCircuit

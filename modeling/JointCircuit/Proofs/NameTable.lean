import JointCircuit.NameTable

/-!
# Look-ups in name tables

A name is found with a value when the table has this entry
(`NameTable.find?_eq_some_iff`).

The names of a table stand in order, so a search among them that stops at the first name
passing a test stops at the least one (`NameTable.find?_keys_eq_some_iff`), and a search for a
name that a list misses at the least one that is missing (`LeastMissing`).  This holds of any
row in an order: what stands in front of an element is what comes before it
(`exists_split_iff`).
-/

namespace JointCircuit

/-- In a row in an order the elements in front of one are those that come before it. -/
theorem exists_split_iff {α : Type} {r : α → α → Prop} (hasymm : ∀ a b, r a b → ¬ r b a)
    {xs : List α} (hxs : xs.Pairwise r) {x : α} {P : α → Prop} :
    (∃ before after, xs = before ++ x :: after ∧ ∀ y ∈ before, P y) ↔
      x ∈ xs ∧ ∀ y ∈ xs, r y x → P y := by
  constructor
  · rintro ⟨before, after, rfl, hbefore⟩
    refine ⟨List.mem_append_right _ (List.mem_cons_self ..), fun y hy hlt => ?_⟩
    rcases List.mem_append.mp hy with hy | hy
    · exact hbefore y hy
    rcases List.mem_cons.mp hy with rfl | hy
    · exact absurd hlt (hasymm _ _ hlt)
    · have hgt := (List.pairwise_cons.mp (List.pairwise_append.mp hxs).2.1).1 y hy
      exact absurd hlt (hasymm _ _ hgt)
  · rintro ⟨hx, hbefore⟩
    obtain ⟨before, after, rfl⟩ := List.append_of_mem hx
    refine ⟨before, after, rfl, fun y hy => hbefore y (List.mem_append_left _ hy) ?_⟩
    exact (List.pairwise_append.mp hxs).2.2 y hy x (List.mem_cons_self ..)

/-- The least name of a row that a list misses. -/
structure LeastMissing (names listed : List String) (name : String) : Prop where
  mem : name ∈ names
  missing : name ∉ listed
  least : ∀ name' ∈ names, name' ∉ listed → name ≤ name'

namespace NameTable

variable {α : Type} {t : NameTable α} {k : String} {v : α}

theorem find?_eq_some_iff : t.find? k = some v ↔ (k, v) ∈ t.entries := by
  rw [find?, List.lookup_eq_some_iff]
  constructor
  · rintro ⟨before, after, hsplit, _⟩
    rw [hsplit]
    exact List.mem_append_right _ (List.mem_cons_self ..)
  · intro hmem
    obtain ⟨before, after, hsplit⟩ := List.append_of_mem hmem
    refine ⟨before, after, hsplit, fun e he => ?_⟩
    have hsorted := t.sorted
    rw [hsplit, List.pairwise_append] at hsorted
    have hlt : e.1 < k := hsorted.2.2 e he (k, v) (List.mem_cons_self ..)
    exact bne_iff_ne.mpr fun heq => String.lt_irrefl k (heq ▸ hlt)

theorem find?_foldl_insert {k : String} :
    ∀ {es : List (String × α)} {t : NameTable α}, k ∉ es.map Prod.fst →
      (es.foldl (fun t e => t.insert e.1 e.2) t).find? k = t.find? k
  | [], _, _ => rfl
  | e :: es, t, h => by
      rw [List.map_cons, List.mem_cons, not_or] at h
      rw [List.foldl_cons, find?_foldl_insert h.2, find?_insert, if_neg h.1]

/-- In a table of entries with names of their own each name has the value of its entry. -/
theorem find?_ofList {es : List (String × α)} (hnodup : (es.map Prod.fst).Nodup)
    (hmem : (k, v) ∈ es) : (ofList es).find? k = some v := by
  obtain ⟨before, after, rfl⟩ := List.append_of_mem hmem
  rw [List.map_append, List.map_cons, List.nodup_append, List.nodup_cons] at hnodup
  rw [ofList, List.foldl_append, List.foldl_cons, find?_foldl_insert hnodup.2.1.1, find?_insert,
    if_pos rfl]

/-! ## Names -/

theorem mem_keys_iff : k ∈ t.keys ↔ ∃ v, t.find? k = some v := by
  rw [keys, List.mem_map]
  simp only [find?_eq_some_iff]
  constructor
  · rintro ⟨⟨k, v⟩, he, rfl⟩
    exact ⟨v, he⟩
  · rintro ⟨v, he⟩
    exact ⟨(k, v), he, rfl⟩

theorem find?_eq_none_iff : t.find? k = none ↔ k ∉ t.keys := by
  rw [mem_keys_iff, Option.eq_none_iff_forall_ne_some, not_exists]

theorem pairwise_keys (t : NameTable α) : t.keys.Pairwise (· < ·) :=
  List.pairwise_map.mpr t.sorted

theorem nodup_keys (t : NameTable α) : t.keys.Nodup := by
  refine t.pairwise_keys.imp fun {k k'} hlt heq => ?_
  subst heq
  exact String.lt_irrefl _ hlt

/-- A search among the names of a table finds the least name that passes the test. -/
theorem find?_keys_eq_some_iff {test : String → Bool} :
    t.keys.find? test = some k ↔
      k ∈ t.keys ∧ test k = true ∧ ∀ k' ∈ t.keys, test k' = true → k ≤ k' := by
  rw [List.find?_eq_some_iff_append, exists_split_iff (fun _ _ => String.lt_asymm) t.pairwise_keys]
  constructor
  · rintro ⟨hk, hmem, hleast⟩
    refine ⟨hmem, hk, fun k' hk' htest => String.not_lt.mp fun hlt => ?_⟩
    have hfails := hleast k' hk' hlt
    rw [htest] at hfails
    cases hfails
  · rintro ⟨hmem, hk, hleast⟩
    refine ⟨hk, hmem, fun k' hk' hlt => ?_⟩
    rw [Bool.not_eq_true', Bool.eq_false_iff]
    exact fun htest => String.not_le.mpr hlt (hleast k' hk' htest)

/-- A search for a name that a list misses finds the least one. -/
theorem find?_eq_some_iff_leastMissing {listed : List String} {test : String → Bool}
    (htest : ∀ k, test k = true ↔ k ∉ listed) :
    t.keys.find? test = some k ↔ LeastMissing t.keys listed k := by
  simp only [find?_keys_eq_some_iff, htest]
  exact ⟨fun ⟨hmem, hmissing, hleast⟩ => ⟨hmem, hmissing, hleast⟩,
    fun h => ⟨h.mem, h.missing, h.least⟩⟩

theorem exists_leastMissing {listed : List String} (h : ¬ ∀ k ∈ t.keys, k ∈ listed) :
    ∃ k, LeastMissing t.keys listed k := by
  have htest : ∀ k, decide (k ∉ listed) = true ↔ k ∉ listed := fun k => decide_eq_true_iff
  cases hfound : t.keys.find? fun k => decide (k ∉ listed) with
  | none =>
      rw [List.find?_eq_none] at hfound
      refine absurd (fun k hk => ?_) h
      exact Decidable.not_not.mp fun hnew => hfound k hk ((htest k).mpr hnew)
  | some k => exact ⟨k, (find?_eq_some_iff_leastMissing htest).mp hfound⟩

end NameTable

end JointCircuit

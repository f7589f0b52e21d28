import JointCircuit.Proofs.Text.Breaks

/-!
# The first lines of a text

A reader that goes from the top sees the first lines of a text before it knows the others,
so what it says of them is about every text with the same first lines.  Two facts carry
such an argument.  The first lines stand in a piece at the front of the text, to which
other lines can be put (`Text.Broken.front`).  And the lines that count among the first
lines are the first that count, up to any of them (`Text.countedLines_eq_append_cons`,
`Text.countedLines_append_cons`).
-/

namespace JointCircuit.Text

/-! ## Lines put behind the first ones -/

/-- The lines in front of the last one stand in a piece of the text that ends with a line
feed, so that any lines can follow it. -/
theorem Broken.front {s : List Char} {ls : List (List Char)} (h : Broken s ls) {k : Nat}
    (hk : k < ls.length) :
    ∃ front back, s = front ++ back ∧
      ∀ more ks, Broken more ks → Broken (front ++ more) (ls.take k ++ ks) := by
  -- the piece ends behind line `k`, so the last line of the text is never in it
  induction h generalizing k with
  | nil => cases hk
  | @last l hne hl =>
      obtain rfl : k = 0 := by simpa using hk
      exact ⟨[], l, rfl, fun _ _ hmore => hmore⟩
  | @feed l rest ls hl hreturn h ih =>
      cases k with
      | zero => exact ⟨[], _, rfl, fun _ _ hmore => hmore⟩
      | succ k =>
          obtain ⟨front, back, rfl, hfront⟩ := ih (Nat.lt_of_succ_lt_succ hk)
          refine ⟨l ++ '\n' :: front, back, by simp, fun more ks hmore => ?_⟩
          simpa using Broken.feed hl hreturn (hfront more ks hmore)
  | @returnFeed l rest ls hl h ih =>
      cases k with
      | zero => exact ⟨[], _, rfl, fun _ _ hmore => hmore⟩
      | succ k =>
          obtain ⟨front, back, rfl, hfront⟩ := ih (Nat.lt_of_succ_lt_succ hk)
          refine ⟨l ++ '\r' :: '\n' :: front, back, by simp, fun more ks hmore => ?_⟩
          simpa using Broken.returnFeed hl (hfront more ks hmore)

/-- A line that a line feed closes and nothing else: it holds none, and it has no carriage
return at its end. -/
structure Row (line : List Char) : Prop where
  unbroken : '\n' ∉ line
  no_return : line.getLast? ≠ some '\r'

instance (line : List Char) : Decidable (Row line) :=
  decidable_of_iff ('\n' ∉ line ∧ line.getLast? ≠ some '\r')
    ⟨fun h => ⟨h.1, h.2⟩, fun h => ⟨h.unbroken, h.no_return⟩⟩

/-- The text of rows, each closed by a line feed. -/
def ofRows (rows : List (List Char)) : List Char := rows.flatMap fun row => row ++ ['\n']

theorem broken_ofRows {rows : List (List Char)} (h : ∀ row ∈ rows, Row row) :
    Broken (ofRows rows) rows := by
  induction rows with
  | nil => exact .nil
  | cons row rows ih =>
      obtain ⟨hrow, hrows⟩ := List.forall_mem_cons.mp h
      simpa [ofRows] using Broken.feed hrow.unbroken hrow.no_return (ih hrows)

/-! ## The lines that count -/

theorem countedLines_append (front rest : List (List Char)) :
    countedLines (front ++ rest) =
      countedLines front ++ (rest.zipIdx (1 + front.length)).filter fun l => ¬ Blank l.1 := by
  rw [countedLines, List.zipIdx_append, List.filter_append, countedLines]

/-- A line that counts is counted behind the lines in front of it, with the lines after it
behind. -/
theorem countedLines_append_cons (front : List (List Char)) {line : List Char}
    (h : ¬ Blank line) (rest : List (List Char)) :
    ∃ after, countedLines (front ++ line :: rest) =
      countedLines front ++ (line, 1 + front.length) :: after := by
  rw [countedLines_append, List.zipIdx_cons, List.filter_cons_of_pos (by simpa using h)]
  exact ⟨_, rfl⟩

/-- Each of the lines that count splits the text: those that count before it are those of the
lines in front of it. -/
theorem countedLines_eq_append_cons {ls : List (List Char)} {l : List Char × Nat}
    {before after : List (List Char × Nat)} (h : countedLines ls = before ++ l :: after) :
    ∃ front rest, ls = front ++ l.1 :: rest ∧ l.2 = 1 + front.length ∧
      countedLines front = before := by
  rw [countedLines, List.filter_eq_append_iff] at h
  obtain ⟨_, _, hsplit, hbefore, hcons⟩ := h
  obtain ⟨front, rest, rfl, rfl, rfl⟩ := List.zipIdx_eq_append_iff.mp hsplit
  -- the lines between the last of `before` and the line are blank
  obtain ⟨_, _, hrest, hblank, -, -⟩ := List.filter_eq_cons_iff.mp hcons
  obtain ⟨gap, tail, rfl, rfl, htail⟩ := List.zipIdx_eq_append_iff.mp hrest
  obtain ⟨line, rest, rfl, rfl, -⟩ := List.zipIdx_eq_cons_iff.mp htail.symm
  refine ⟨front ++ gap, rest, by simp, by simp [Nat.add_assoc], ?_⟩
  rw [countedLines_append, List.filter_eq_nil_iff.mpr hblank, List.append_nil, countedLines,
    hbefore]

/-- Lines of which none is blank all count. -/
theorem countedLines_append_solid {rows : List (List Char)} (h : ∀ row ∈ rows, ¬ Blank row)
    (front : List (List Char)) :
    countedLines (front ++ rows) = countedLines front ++ rows.zipIdx (1 + front.length) := by
  rw [countedLines_append, List.filter_eq_self.mpr]
  intro l hl
  simpa using h l.1 (List.fst_mem_of_mem_zipIdx hl)

end JointCircuit.Text

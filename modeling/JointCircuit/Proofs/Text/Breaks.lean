import JointCircuit.Circuit.Grammar
import JointCircuit.Proofs.Text.Tokens

/-!
# Breaking a text into lines

What the lines of a text are, without an algorithm.  A line ends at a line feed or at
a carriage return with a line feed, and neither is part of it; what is left after the
last of them is a line when it is not empty (`Text.Broken`).  Every text has its lines
(`Text.exists_broken`).

The reader leaves the carriage return in the line and trims the line later, which gives
the same: the lines it works on are those of the text that are not blank, trimmed, with
their numbers (`Text.Broken.contentLines_eq`).
-/

namespace JointCircuit.Text

/-- A text and its lines. -/
inductive Broken : List Char → List (List Char) → Prop where
  | nil : Broken [] []
  /-- The last line of a text may end with it. -/
  | last {l : List Char} (hne : l ≠ []) (hl : '\n' ∉ l) : Broken l [l]
  | feed {l rest : List Char} {ls : List (List Char)} (hl : '\n' ∉ l)
      (hreturn : l.getLast? ≠ some '\r') (h : Broken rest ls) :
      Broken (l ++ '\n' :: rest) (l :: ls)
  | returnFeed {l rest : List Char} {ls : List (List Char)} (hl : '\n' ∉ l)
      (h : Broken rest ls) : Broken (l ++ '\r' :: '\n' :: rest) (l :: ls)

/-- The lines that are not blank, each with its number, counted from one over all lines. -/
def countedLines (ls : List (List Char)) : List (List Char × Nat) :=
  (ls.zipIdx 1).filter fun l => ¬ Blank l.1

theorem not_blank_of_mem_countedLines {ls : List (List Char)} {l : List Char × Nat}
    (h : l ∈ countedLines ls) : ¬ Blank l.1 :=
  of_decide_eq_true (List.mem_filter.mp h).2

/-! ## Every text has its lines -/

theorem exists_broken (s : List Char) : ∃ ls, Broken s ls := by
  -- the recursion is on what follows the first line feed
  by_cases hs : '\n' ∈ s
  · obtain ⟨l, rest, hsplit, hl⟩ := List.eq_append_cons_of_mem hs
    have hshorter : rest.length < s.length := by
      rw [hsplit, List.length_append, List.length_cons]
      omega
    obtain ⟨ls, hrest⟩ := exists_broken rest
    rw [hsplit]
    by_cases hreturn : l.getLast? = some '\r'
    · obtain ⟨l, rfl⟩ := List.getLast?_eq_some_iff.mp hreturn
      rw [List.append_assoc]
      exact ⟨l :: ls, .returnFeed (fun h => hl (List.mem_append_left _ h)) hrest⟩
    · exact ⟨l :: ls, .feed hl hreturn hrest⟩
  · by_cases hne : s = []
    · exact ⟨[], hne ▸ .nil⟩
    · exact ⟨[s], .last hne hs⟩
termination_by s.length

/-! ## The lines of the reader -/

theorem lines_append_feed {l : List Char} (hl : '\n' ∉ l) (rest : List Char) :
    lines (l ++ '\n' :: rest) = l :: lines rest := by
  induction l with
  | nil => rfl
  | cons c l ih =>
      obtain ⟨hc, hl⟩ := not_or.mp (mt List.mem_cons.mpr hl)
      rw [List.cons_append, lines, if_neg (Ne.symm hc), ih hl, extendLine]

theorem lines_of_not_mem {l : List Char} (hne : l ≠ []) (hl : '\n' ∉ l) : lines l = [l] := by
  induction l with
  | nil => exact absurd rfl hne
  | cons c l ih =>
      obtain ⟨hc, hl⟩ := not_or.mp (mt List.mem_cons.mpr hl)
      rw [lines, if_neg (Ne.symm hc)]
      cases l with
      | nil => rfl
      | cons d l => rw [ih (List.cons_ne_nil d l) hl, extendLine]

/-- Trimmed, the lines of the reader are those of the text. -/
theorem Broken.map_trim_eq {s : List Char} {ls : List (List Char)} (h : Broken s ls) :
    (lines s).map trim = ls.map trim := by
  induction h with
  | nil => rfl
  | last hne hl => rw [lines_of_not_mem hne hl]
  | feed hl hreturn h ih => rw [lines_append_feed hl, List.map_cons, List.map_cons, ih]
  | @returnFeed l rest ls hl h ih =>
      have hblank : Blank ['\r'] := by simp [Blank, isBlank]
      have hline : '\n' ∉ l ++ ['\r'] := by simp [hl]
      rw [show l ++ '\r' :: '\n' :: rest = (l ++ ['\r']) ++ '\n' :: rest by simp,
        lines_append_feed hline, List.map_cons, List.map_cons, ih, trim_append_blank hblank]

theorem numberFrom_eq_zipIdx (n : Nat) (ls : List (List Char)) :
    numberFrom n ls = (ls.zipIdx n).map Prod.swap := by
  induction ls generalizing n with
  | nil => rfl
  | cons l ls ih =>
      rw [numberFrom, ih, List.zipIdx_cons, List.map_cons]
      rfl

/-- The reader works on the lines of the text that are not blank, trimmed. -/
theorem Broken.contentLines_eq {s : List Char} {ls : List (List Char)} (h : Broken s ls) :
    contentLines s = (countedLines ls).map fun l => (l.2, trim l.1) := by
  have htrim : ∀ ks : List (List Char), (numbered ks).map (fun l => (l.1, trim l.2)) =
      ((ks.map trim).zipIdx 1).map Prod.swap := by
    intro ks
    rw [numbered, numberFrom_eq_zipIdx, List.map_map, List.zipIdx_map, List.map_map]
    rfl
  rw [contentLines, htrim, h.map_trim_eq, List.zipIdx_map, List.map_map, List.filter_map,
    countedLines]
  refine congrArg _ (List.filter_congr fun l _ => ?_)
  simp [trim_eq_nil_iff]

end JointCircuit.Text

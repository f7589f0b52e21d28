import JointCircuit.Text.Blank
import JointCircuit.Text.Numeral
import Mathlib.Data.List.TakeWhile
import Mathlib.Data.Nat.Digits.Defs
import Mathlib.Tactic.IntervalCases
import Mathlib.Tactic.Ring

/-!
# Tokens and numerals

What the words of a line are, without an algorithm.  A line holds *tokens*: pieces
without blanks, one or more blanks between two neighbours, and any blanks at its two
ends (`Text.Holds`).  Cutting a line at blanks gives its tokens and nothing else
(`Text.words_eq_iff`).

A *numeral* is an optional plus sign and decimal digits, with a value below `2 ^ 64`
(`Text.Numeral`).  The reader of numbers accepts the numerals, with their values
(`Text.number?_eq_some_iff`).
-/

namespace JointCircuit.Text

/-! ## Tokens -/

/-- A text of blanks. -/
def Blank (s : List Char) : Prop := ∀ c ∈ s, isBlank c = true

instance (s : List Char) : Decidable (Blank s) :=
  inferInstanceAs (Decidable (∀ c ∈ s, isBlank c = true))

/-- A piece of a line that is not empty and has no blank. -/
structure IsToken (w : List Char) : Prop where
  ne_nil : w ≠ []
  solid : ∀ c ∈ w, isBlank c = false

/-- Tokens with one or more blanks between two neighbours. -/
inductive Spaced : List (List Char) → List Char → Prop where
  | one {w : List Char} (h : IsToken w) : Spaced [w] w
  | cons {w gap rest : List Char} {ws : List (List Char)} (hw : IsToken w) (hgap : gap ≠ [])
      (hblank : Blank gap) (h : Spaced ws rest) : Spaced (w :: ws) (w ++ (gap ++ rest))

/-- A line that holds tokens, with blanks at its two ends. -/
def Holds (line : List Char) (ws : List (List Char)) : Prop :=
  ∃ before body after, line = before ++ (body ++ after) ∧ Blank before ∧ Blank after ∧
    Spaced ws body

theorem Spaced.ne_nil {ws : List (List Char)} {body : List Char} (h : Spaced ws body) :
    ws ≠ [] := by
  cases h <;> simp

theorem Holds.ne_nil {line : List Char} {ws : List (List Char)} (h : Holds line ws) : ws ≠ [] := by
  obtain ⟨_, _, _, _, _, _, hbody⟩ := h
  exact hbody.ne_nil

/-- A row of tokens starts with a character that is not blank. -/
theorem Spaced.head {ws : List (List Char)} {body : List Char} (h : Spaced ws body) :
    ∃ c rest, body = c :: rest ∧ isBlank c = false := by
  have hfirst : ∀ {w : List Char} (tail : List Char), IsToken w →
      ∃ c rest, w ++ tail = c :: rest ∧ isBlank c = false := by
    intro w tail hw
    obtain ⟨c, rest, rfl⟩ := List.exists_cons_of_ne_nil hw.ne_nil
    exact ⟨c, rest ++ tail, rfl, hw.solid c List.mem_cons_self⟩
  cases h with
  | one hw => simpa using hfirst [] hw
  | cons hw hgap hblank h => exact hfirst _ hw

/-! ## Cutting a line -/

theorem words_blank_append {gap : List Char} (h : Blank gap) (s : List Char) :
    words (gap ++ s) = words s := by
  induction gap with
  | nil => rfl
  | cons c gap ih =>
      obtain ⟨hc, hgap⟩ := List.forall_mem_cons.mp h
      rw [List.cons_append, words, if_pos hc, ih hgap]

theorem words_append_blank {gap : List Char} (h : Blank gap) (s : List Char) :
    words (s ++ gap) = words s := by
  induction s with
  | nil => exact words_blank h
  | cons c s ih =>
      rw [List.cons_append, words, words, ih]
      cases s with
      | nil => rfl
      | cons d s => rfl

/-- A token in front of a blank is the first word. -/
theorem words_token_append {w : List Char} (rest : List Char) (h : IsToken w)
    (hrest : rest.head?.all isBlank = true) : words (w ++ rest) = w :: words rest := by
  obtain ⟨hne, hsolid⟩ := h
  induction w with
  | nil => exact absurd rfl hne
  | cons c w ih =>
      rw [List.forall_mem_cons] at hsolid
      rw [List.cons_append, words, if_neg (by simp [hsolid.1])]
      cases w with
      | nil =>
          rw [List.nil_append]
          cases words rest with
          | nil => rfl
          | cons v vs => exact if_pos hrest
      | cons d w =>
          have hd := (List.forall_mem_cons.mp hsolid.2).1
          rw [ih (List.cons_ne_nil d w) hsolid.2]
          simp [extendWord, hd]

theorem Spaced.words_eq {ws : List (List Char)} {body after : List Char} (h : Spaced ws body)
    (hafter : Blank after) : words (body ++ after) = ws := by
  rw [words_append_blank hafter]
  induction h with
  | @one w hw => simpa [words] using words_token_append [] hw rfl
  | @cons w gap rest ws hw hgap hblank h ih =>
      obtain ⟨c, gap, rfl⟩ := List.exists_cons_of_ne_nil hgap
      have hc : ((c :: gap ++ rest).head?).all isBlank = true := hblank c List.mem_cons_self
      rw [words_token_append _ hw hc, words_blank_append hblank, ih]

theorem Holds.words_eq {line : List Char} {ws : List (List Char)} (h : Holds line ws) :
    words line = ws := by
  obtain ⟨before, body, after, rfl, hbefore, hafter, hbody⟩ := h
  rw [words_blank_append hbefore, hbody.words_eq hafter]

/-- A token and the blanks behind it can be put in front of a line that holds tokens, as it
is when it starts with a blank. -/
theorem Holds.cons {w line : List Char} {ws : List (List Char)} (hw : IsToken w)
    (hline : line.head?.all isBlank = true) (h : Holds line ws) : Holds (w ++ line) (w :: ws) := by
  obtain ⟨before, body, after, rfl, hbefore, hafter, hbody⟩ := h
  have hgap : before ≠ [] := by
    rintro rfl
    obtain ⟨c, rest, rfl, hc⟩ := hbody.head
    simp [hc] at hline
  exact ⟨[], w ++ (before ++ body), after, by simp, by simp [Blank], hafter,
    .cons hw hgap hbefore hbody⟩

/-- The first token of a row can be made longer at its front. -/
theorem Spaced.extend {c : Char} {w body : List Char} {ws : List (List Char)}
    (hc : isBlank c = false) (h : Spaced (w :: ws) body) : Spaced ((c :: w) :: ws) (c :: body) := by
  have hlonger : ∀ {v : List Char}, IsToken v → IsToken (c :: v) := fun hv =>
    ⟨List.cons_ne_nil _ _, List.forall_mem_cons.mpr ⟨hc, hv.solid⟩⟩
  cases h with
  | one hw => exact .one (hlonger hw)
  | cons hw hgap hblank h => exact .cons (hlonger hw) hgap hblank h

/-- A line is blank or holds its words. -/
theorem blank_or_holds (line : List Char) : Blank line ∨ Holds line (words line) := by
  induction line with
  | nil => exact .inl fun _ h => absurd h List.not_mem_nil
  | cons c s ih =>
      cases hc : isBlank c with
      | true =>
          rw [words, if_pos hc]
          refine ih.imp (fun hs => List.forall_mem_cons.mpr ⟨hc, hs⟩) ?_
          rintro ⟨before, body, after, rfl, hbefore, hafter, hbody⟩
          exact ⟨c :: before, body, after, rfl, List.forall_mem_cons.mpr ⟨hc, hbefore⟩, hafter,
            hbody⟩
      | false =>
          rw [words, if_neg (by simp [hc])]
          have hsingle : IsToken [c] := ⟨List.cons_ne_nil _ _, by simpa using hc⟩
          refine .inr ?_
          rcases ih with hs | hs
          · -- the last token of the line
            rw [words_blank hs]
            exact ⟨[], [c], s, rfl, by simp [Blank], hs, .one hsingle⟩
          · obtain ⟨w, ws, hwords⟩ := List.exists_cons_of_ne_nil hs.ne_nil
            rw [hwords] at hs ⊢
            rw [extendWord]
            split
            · rename_i hnext
              exact hs.cons hsingle hnext
            · -- the first token goes on
              rename_i hnext
              obtain ⟨before, body, after, rfl, hbefore, hafter, hbody⟩ := hs
              cases before with
              | nil => exact ⟨[], c :: body, after, rfl, hbefore, hafter, hbody.extend hc⟩
              | cons d before => exact absurd (hbefore d List.mem_cons_self) hnext

/-- The words of a line that is not blank are its tokens. -/
theorem words_eq_iff {line : List Char} {ws : List (List Char)} (h : ¬ Blank line) :
    words line = ws ↔ Holds line ws := by
  refine ⟨fun hwords => ?_, Holds.words_eq⟩
  rw [← hwords]
  exact (blank_or_holds line).resolve_left h

/-! ## Trimming -/

theorem trim_append_blank {gap : List Char} (h : Blank gap) (s : List Char) :
    trim (s ++ gap) = trim s := by
  have hreverse : ∀ c ∈ gap.reverse, isBlank c = true := fun c hc => h c (List.mem_reverse.mp hc)
  rw [trim, trim, List.dropWhile_append]
  split
  · rename_i hs
    rw [List.isEmpty_iff] at hs
    rw [hs, List.dropWhile_eq_nil_iff.mpr h]
  · rw [List.reverse_append, List.dropWhile_append_of_pos hreverse]

/-- Trimming takes blanks off both ends. -/
theorem exists_trim (s : List Char) :
    ∃ before after, s = before ++ (trim s ++ after) ∧ Blank before ∧ Blank after := by
  have hfront := List.takeWhile_append_dropWhile (p := isBlank) (l := s)
  have hback := List.takeWhile_append_dropWhile (p := isBlank) (l := (s.dropWhile isBlank).reverse)
  refine ⟨s.takeWhile isBlank, ((s.dropWhile isBlank).reverse.takeWhile isBlank).reverse,
    ?_, ?_, ?_⟩
  · rw [trim, ← List.reverse_append, hback, List.reverse_reverse, hfront]
  · exact fun c hc => List.mem_takeWhile_imp hc
  · exact fun c hc => List.mem_takeWhile_imp (List.mem_reverse.mp hc)

theorem words_trim (s : List Char) : words (trim s) = words s := by
  obtain ⟨before, after, hs, hbefore, hafter⟩ := exists_trim s
  conv_rhs => rw [hs, words_blank_append hbefore, words_append_blank hafter]

/-- Nothing is left of a text exactly when it is blank. -/
theorem trim_eq_nil_iff {s : List Char} : trim s = [] ↔ Blank s := by
  constructor
  · intro hnil
    obtain ⟨before, after, hs, hbefore, hafter⟩ := exists_trim s
    rw [hs, hnil, List.nil_append]
    exact List.forall_mem_append.mpr ⟨hbefore, hafter⟩
  · intro h
    rw [trim, List.dropWhile_eq_nil_iff.mpr h]
    rfl

/-! ## Numerals -/

/-- A word writes a number: an optional plus sign and decimal digits, with a value below
`2 ^ 64`. -/
def Numeral (word : List Char) (n : Nat) : Prop :=
  ∃ sign digits, word = sign ++ digits ∧ (sign = [] ∨ sign = ['+']) ∧ digits ≠ [] ∧
    (∀ c ∈ digits, c ∈ ['0', '1', '2', '3', '4', '5', '6', '7', '8', '9']) ∧
    n = Nat.ofDigits 10 (digits.reverse.map fun c => c.toNat - '0'.toNat) ∧ n < 2 ^ 64

theorem isDigit_iff {c : Char} :
    isDigit c = true ↔ c ∈ ['0', '1', '2', '3', '4', '5', '6', '7', '8', '9'] := by
  constructor
  · intro h
    simp only [isDigit, Bool.and_eq_true, decide_eq_true_eq] at h
    obtain ⟨hlow, hhigh⟩ : 48 ≤ c.toNat ∧ c.toNat ≤ 57 := h
    rw [← Char.ofNat_toNat c]
    generalize c.toNat = n at hlow hhigh
    interval_cases n <;> decide
  · intro h
    have hall : ['0', '1', '2', '3', '4', '5', '6', '7', '8', '9'].all isDigit = true := rfl
    exact List.all_eq_true.mp hall c h

/-- The reader of digits gives their decimal value. -/
theorem valueFrom_eq (n : Nat) (digits : List Char) :
    valueFrom n digits =
      Nat.ofDigits 10 (digits.reverse.map fun c => c.toNat - '0'.toNat) +
        10 ^ digits.length * n := by
  induction digits generalizing n with
  | nil => simp [valueFrom]
  | cons c digits ih =>
      rw [valueFrom, List.foldl_cons, ← valueFrom, ih, List.reverse_cons, List.map_append,
        Nat.ofDigits_append, List.length_map, List.length_reverse, List.map_singleton,
        Nat.ofDigits_singleton, List.length_cons, digitValue]
      ring

theorem dropPlus_digits {digits : List Char} (h : ∀ c ∈ digits, isDigit c = true) :
    dropPlus digits = digits := by
  unfold dropPlus
  split
  · have hplus : isDigit '+' = true := h '+' List.mem_cons_self
    exact absurd hplus (by decide)
  · rfl

/-- A word is its sign and the rest. -/
theorem exists_sign (word : List Char) :
    ∃ sign, word = sign ++ dropPlus word ∧ (sign = [] ∨ sign = ['+']) := by
  unfold dropPlus
  split
  · exact ⟨['+'], rfl, .inr rfl⟩
  · exact ⟨[], rfl, .inl rfl⟩

/-- The reader of numbers accepts the numerals, with their values. -/
theorem number?_eq_some_iff {word : List Char} {n : Nat} :
    number? word = some n ↔ Numeral word n := by
  constructor
  · intro h
    obtain ⟨sign, hword, hsign⟩ := exists_sign word
    simp only [number?] at h
    split at h
    · cases h
    · rename_i hne
      split at h
      · rename_i hall
        rw [List.all_eq_true] at hall
        split at h
        · rename_i hle
          cases h
          refine ⟨sign, dropPlus word, hword, hsign, hne,
            fun c hc => isDigit_iff.mp (hall c hc), ?_, Nat.lt_succ_of_le hle⟩
          rw [valueFrom_eq, Nat.mul_zero, Nat.add_zero]
        · cases h
      · cases h
  · rintro ⟨sign, digits, rfl, hsign, hne, hdigits, hvalue, hlt⟩
    replace hdigits : ∀ c ∈ digits, isDigit c = true := fun c hc => isDigit_iff.mpr (hdigits c hc)
    have hdrop : dropPlus (sign ++ digits) = digits := by
      rcases hsign with rfl | rfl
      · exact dropPlus_digits hdigits
      · rfl
    have hread : valueFrom 0 digits = n := by
      rw [valueFrom_eq, Nat.mul_zero, Nat.add_zero, hvalue]
    have hle : n ≤ maxIndex := Nat.le_of_lt_succ hlt
    simp only [number?]
    rw [hdrop, if_neg hne, if_pos (List.all_eq_true.mpr hdigits), hread, if_pos hle]

end JointCircuit.Text

import JointCircuit.Circuit.Grammar

/-!
# Steps that may fail

A computation in `Except` is a sequence of steps of which the first failure is the result.
The lemmas here take such a sequence apart: it succeeds when every step does, and it fails
when one does.  What a sequence of checks reports is about the first element of a row that
fails (`exists_first_not`, `exists_first_bad`).  A computation is described when one knows
when it succeeds and for which reason it fails with an error (`ok_and_error_iff`).
-/

namespace JointCircuit

variable {α β ε δ : Type}

/-- A step followed by another succeeds when both do. -/
theorem bind_eq_ok {x : Except ε α} {f : α → Except ε β} {b : β} :
    (x >>= f) = .ok b ↔ ∃ a, x = .ok a ∧ f a = .ok b := by
  cases x with
  | error e =>
      constructor
      · intro h
        cases h
      · rintro ⟨a, h, _⟩
        cases h
  | ok a =>
      constructor
      · intro h
        exact ⟨a, rfl, h⟩
      · rintro ⟨a', h, hf⟩
        cases h
        exact hf

/-- A step followed by another fails when one of them does. -/
theorem bind_eq_error {x : Except ε α} {f : α → Except ε β} {e : ε} :
    (x >>= f) = .error e ↔ x = .error e ∨ ∃ a, x = .ok a ∧ f a = .error e := by
  cases x <;> simp [bind, Except.bind]

/-- A check followed by another step succeeds when both do. -/
theorem check_bind_eq_ok {x : Except ε Unit} {f : Unit → Except ε β} {b : β} :
    (x >>= f) = .ok b ↔ x = .ok () ∧ f () = .ok b := by
  rw [bind_eq_ok]
  constructor
  · rintro ⟨⟨⟩, h⟩
    exact h
  · intro h
    exact ⟨(), h⟩

@[simp] theorem ok_bind (a : α) (f : α → Except ε β) : (Except.ok a >>= f) = f a := rfl

@[simp] theorem error_bind (e : ε) (f : α → Except ε β) :
    (Except.error e >>= f) = .error e := rfl

theorem mapError_eq_ok {f : ε → δ} {x : Except ε α} {a : α} :
    x.mapError f = .ok a ↔ x = .ok a := by
  cases x with
  | error e => constructor <;> (intro h; cases h)
  | ok b => constructor <;> (intro h; cases h; rfl)

theorem atLine_eq_ok {line : Nat} {x : Except CircuitFault α} {a : α} :
    Netlist.atLine line x = .ok a ↔ x = .ok a := by
  cases x with
  | error e => constructor <;> (intro h; cases h)
  | ok b => constructor <;> (intro h; cases h; rfl)

theorem atLine_eq_error {line : Nat} {x : Except CircuitFault α} {e : FormatError} :
    Netlist.atLine line x = .error e ↔ e.line = line ∧ x = .error e.fault := by
  obtain ⟨line', fault⟩ := e
  cases x <;> simp [Netlist.atLine, eq_comm]

theorem exists_ok_of_isOk {x : Except ε α} (h : x.isOk = true) : ∃ a, x = .ok a := by
  cases x with
  | error e => cases h
  | ok a => exact ⟨a, rfl⟩

theorem exists_ok_and_of_any {x : Except ε α} {P : α → Prop} [DecidablePred P]
    (h : x.toOption.any (fun a => decide (P a)) = true) : ∃ a, x = .ok a ∧ P a := by
  cases x with
  | error e => cases h
  | ok a => exact ⟨a, rfl, of_decide_eq_true h⟩

theorem toOption_eq_some {x : Except ε α} {a : α} : x.toOption = some a ↔ x = .ok a := by
  cases x with
  | error e => constructor <;> (intro h; cases h)
  | ok b => constructor <;> (intro h; cases h; rfl)

/-- In a row of which not all elements have a property there is a first one without it. -/
theorem exists_first_not {P : α → Prop} {xs : List α} (h : ¬ ∀ x ∈ xs, P x) :
    ∃ before x after, xs = before ++ x :: after ∧ (∀ b ∈ before, P b) ∧ ¬ P x := by
  induction xs with
  | nil => exact absurd (fun _ hx => absurd hx List.not_mem_nil) h
  | cons x xs ih =>
      by_cases hx : P x
      · rw [List.forall_mem_cons, not_and] at h
        obtain ⟨before, y, after, rfl, hbefore, hy⟩ := ih (h hx)
        exact ⟨x :: before, y, after, rfl, List.forall_mem_cons.mpr ⟨hx, hbefore⟩, hy⟩
      · exact ⟨[], x, xs, rfl, fun _ hb => absurd hb List.not_mem_nil, hx⟩

/-- In a row that is not good there is a first element with which it becomes bad. -/
theorem exists_first_bad {P : List α → Prop} (hnil : P []) {xs : List α} (h : ¬ P xs) :
    ∃ before x after, xs = before ++ x :: after ∧ P before ∧ ¬ P (before ++ [x]) := by
  induction xs generalizing P with
  | nil => exact absurd hnil h
  | cons x xs ih =>
      by_cases hx : P [x]
      · obtain ⟨before, y, after, rfl, hbefore, hy⟩ := ih (P := fun ys => P (x :: ys)) hx h
        exact ⟨x :: before, y, after, rfl, hbefore, hy⟩
      · exact ⟨[], x, xs, rfl, hnil, hx⟩

/-- A computation that succeeds on a condition, fails for reasons that say with which error,
and has one or the other, is described by the two. -/
theorem ok_and_error_iff {x : Except ε α} {accepts : Prop} {refuses : ε → Prop}
    (hok : accepts → ∃ a, x = .ok a) (herror : ∀ e, refuses e → x = .error e)
    (htotal : accepts ∨ ∃ e, refuses e) :
    ((∃ a, x = .ok a) ↔ accepts) ∧ ∀ e, x = .error e ↔ refuses e := by
  rcases htotal with haccepts | ⟨e, hrefuses⟩
  · obtain ⟨a, ha⟩ := hok haccepts
    refine ⟨⟨fun _ => haccepts, hok⟩, fun e => ⟨fun he => ?_, herror e⟩⟩
    rw [ha] at he
    cases he
  · have he := herror e hrefuses
    refine ⟨⟨fun ⟨a, ha⟩ => ?_, hok⟩, fun e' => ⟨fun he' => ?_, herror e'⟩⟩
    · rw [he] at ha
      cases ha
    · obtain rfl := Except.error.inj (he.symm.trans he')
      exact hrefuses

end JointCircuit

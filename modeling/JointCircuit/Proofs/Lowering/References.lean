import JointCircuit.Lowered
import JointCircuit.Lowering.WireRef
import Mathlib.Logic.Function.Basic

/-!
# Gates over references

While a circuit is being lowered its gates are over references, and no memory has
a place for an output ticket yet.  Here the gates run on an assignment of bits to
references (`runRefs`).

`runRefs_resolve` says that giving every reference its place does not change what
the gates compute.  It needs that only references that were handed out occur,
since a place inside the output block is also that of an inner wire nobody has
handed out.
-/

namespace JointCircuit

namespace LoweredGate

variable {V W : Type}

/-- The bit a gate writes, from the bits of its operands. -/
def value (read : W → Bool) : LoweredGate W → Bool
  | .and x y _ => read x && read y
  | .xor x y _ => read x ^^ read y
  | .inv x _ => !read x

theorem run_eq (m : Memory) (g : LoweredGate Nat) : g.run m = m.set g.output (g.value m.read) := by
  cases g <;> rfl

theorem value_congr {f f' : W → Bool} {g : LoweredGate W} (h : ∀ x ∈ g.operands, f x = f' x) :
    g.value f = g.value f' := by
  cases g with
  | and x y z => simp only [value, h x (by simp [operands]), h y (by simp [operands])]
  | xor x y z => simp only [value, h x (by simp [operands]), h y (by simp [operands])]
  | inv x z => simp only [value, h x (by simp [operands])]

@[simp] theorem output_map (f : V → W) (g : LoweredGate V) : (g.map f).output = f g.output := by
  cases g <;> rfl

@[simp] theorem operands_map (f : V → W) (g : LoweredGate V) :
    (g.map f).operands = g.operands.map f := by
  cases g <;> rfl

@[simp] theorem value_map (f : V → W) (read : W → Bool) (g : LoweredGate V) :
    (g.map f).value read = g.value fun x => read (f x) := by
  cases g <;> rfl

end LoweredGate

/-! ## Running on references -/

/-- The bits on references after a row of gates. -/
def runRefs : List (LoweredGate WireRef) → (WireRef → Bool) → WireRef → Bool
  | [], v => v
  | g :: gs, v => runRefs gs (Function.update v g.output (g.value v))

theorem runRefs_append (gs hs : List (LoweredGate WireRef)) (v : WireRef → Bool) :
    runRefs (gs ++ hs) v = runRefs hs (runRefs gs v) := by
  induction gs generalizing v with
  | nil => rfl
  | cons g gs ih => exact ih _

/-- The bits on references before any gate, from those on the input wires. -/
def inputRefs (bits : List Bool) : WireRef → Bool
  | .placed k => bits.getD k false
  | .output _ => false

/-! ## References that were handed out -/

namespace WireRef

/-- A reference is an inner wire below `next` or an output wire with a ticket below
`outputs`. -/
def Issued (next outputs : Nat) : WireRef → Prop
  | .placed wire => wire < next
  | .output ticket => ticket < outputs

/-- A reference that was handed out gets a place before the end of the output block. -/
theorem Issued.resolve_lt {next outputs : Nat} {r : WireRef} (h : r.Issued next outputs) :
    r.resolve next < next + outputs := by
  cases r with
  | placed wire => exact Nat.lt_add_right outputs h
  | output ticket => exact Nat.add_lt_add_left h next

/-- Different references that were handed out get different places. -/
theorem resolve_inj {next outputs : Nat} {r r' : WireRef} (hr : r.Issued next outputs)
    (hr' : r'.Issued next outputs) (h : r.resolve next = r'.resolve next) : r = r' := by
  cases r with
  | placed k =>
      cases r' with
      | placed k' => exact congrArg placed h
      | output t' =>
          simp only [Issued, resolve] at hr h
          omega
  | output t =>
      cases r' with
      | placed k' =>
          simp only [Issued, resolve] at hr' h
          omega
      | output t' =>
          simp only [resolve] at h
          exact congrArg output (by omega)

end WireRef

/-- A gate of which all references were handed out. -/
def LoweredGate.Issued (next outputs : Nat) (g : LoweredGate WireRef) : Prop :=
  g.output.Issued next outputs ∧ ∀ x ∈ g.operands, x.Issued next outputs

/-- Gates compute the same on places as on references. -/
theorem runRefs_resolve {next outputs : Nat} :
    ∀ {gs : List (LoweredGate WireRef)} {v : WireRef → Bool} {m : Memory},
      (∀ g ∈ gs, g.Issued next outputs) →
      (∀ r : WireRef, r.Issued next outputs → m.read (r.resolve next) = v r) →
      ∀ r : WireRef, r.Issued next outputs →
        Memory.read ((gs.map (LoweredGate.map (WireRef.resolve next))).foldl LoweredGate.run m)
          (r.resolve next) = runRefs gs v r
  | [], _, _, _, hm, r, hr => hm r hr
  | g :: gs, v, m, hgs, hm, r, hr => by
      obtain ⟨hout, hops⟩ := hgs g (List.mem_cons_self ..)
      rw [List.map_cons, List.foldl_cons, runRefs]
      refine runRefs_resolve (fun g' hg' => hgs g' (List.mem_cons_of_mem _ hg')) ?_ r hr
      intro r' hr'
      have hvalue : g.value (fun x => m.read (x.resolve next)) = g.value v :=
        LoweredGate.value_congr fun x hx => hm x (hops x hx)
      rw [LoweredGate.run_eq, Memory.read_set, LoweredGate.output_map, LoweredGate.value_map,
          hvalue]
      by_cases h : r' = g.output
      · rw [if_pos (congrArg (WireRef.resolve next) h), h, Function.update_self]
      · rw [if_neg fun e => h (WireRef.resolve_inj hr' hout e), Function.update_of_ne h, hm r' hr']

/-- Before any gate the places of references hold the bits on the input wires. -/
theorem read_ofBits_resolve {next : Nat} {bits : List Bool} (h : bits.length ≤ next) (r : WireRef) :
    (Memory.ofBits bits).read (r.resolve next) = inputRefs bits r := by
  cases r with
  | placed k => rw [Memory.read_ofBits, WireRef.resolve, inputRefs]
  | output t =>
      rw [Memory.read_ofBits, WireRef.resolve, inputRefs, List.getD_eq_getElem?_getD,
        List.getElem?_eq_none (by omega), Option.getD_none]

end JointCircuit

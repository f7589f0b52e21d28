import JointCircuit.Setup.Bytes
import Mathlib.Algebra.Group.Nat.Defs

/-!
# The bytes of a setup say which setup it is

The bytes of a setup hold no separators.  They can be read back all the same, since
every part starts with its length.

`Unambiguous` is what makes this compositional: the bytes of a value can be split off
whatever follows them, and say which value it is.  Eight bytes do that for a number below
`2 ^ 64`, and with the length in front a string, a list and a table do it too.  A record
does it when its fields do (`Unambiguous.append`).

So the bytes of a setup are never at the front of those of another one
(`Setup.bytes_unambiguous`), as long as its lengths and wires fit into eight bytes
(`Setup.WordSized`).
-/

namespace JointCircuit.Setup

/-- The bytes of the values in `P` can be split off whatever follows them, and say which
value it is. -/
def Unambiguous {α : Type} (P : α → Prop) (f : α → List UInt8) : Prop :=
  ∀ ⦃a b : α⦄, P a → P b → ∀ ⦃xs ys : List UInt8⦄, f a ++ xs = f b ++ ys → a = b ∧ xs = ys

/-! ## What fits into eight bytes -/

/-- A count or wire fits into eight bytes. -/
def IsWord (n : Nat) : Prop := n < 2 ^ 64

/-- The number of UTF-8 bytes of a string fits into eight bytes. -/
def TextSized (s : String) : Prop := IsWord s.utf8ByteSize

/-- The number of elements of a list fits into eight bytes, and every element is sized. -/
def ListSized {α : Type} (P : α → Prop) (xs : List α) : Prop := IsWord xs.length ∧ ∀ x ∈ xs, P x

/-- The name and the wire of an entry are sized. -/
def EntrySized (e : String × Nat) : Prop := TextSized e.1 ∧ IsWord e.2

/-- A table has sized entries, and not too many. -/
def TableSized (t : NameTable Nat) : Prop := ListSized EntrySized t.entries

/-- The text and the tables of a circuit are sized. -/
def CircuitSized (c : Circuit) : Prop :=
  TextSized c.text ∧ TableSized c.inputs ∧ TableSized c.outputs

/-- The name and the lists of a party are sized. -/
def PartySized (p : Party) : Prop :=
  TextSized p.name ∧ ListSized TextSized p.inputs ∧ ListSized TextSized p.outputs

/-- All lengths and wires of a setup fit into eight bytes. -/
def WordSized (s : Setup) : Prop := CircuitSized s.circuit ∧ ListSized PartySized s.parties

instance : DecidablePred IsWord := fun n => inferInstanceAs (Decidable (n < 2 ^ 64))

instance : DecidablePred TextSized := fun s => inferInstanceAs (Decidable (IsWord s.utf8ByteSize))

instance {α : Type} {P : α → Prop} [DecidablePred P] : DecidablePred (ListSized P) := fun xs =>
  inferInstanceAs (Decidable (IsWord xs.length ∧ ∀ x ∈ xs, P x))

instance : DecidablePred EntrySized := fun e =>
  inferInstanceAs (Decidable (TextSized e.1 ∧ IsWord e.2))

instance : DecidablePred TableSized := fun t =>
  inferInstanceAs (Decidable (ListSized EntrySized t.entries))

instance : DecidablePred CircuitSized := fun c =>
  inferInstanceAs (Decidable (TextSized c.text ∧ TableSized c.inputs ∧ TableSized c.outputs))

instance : DecidablePred PartySized := fun p =>
  inferInstanceAs
    (Decidable (TextSized p.name ∧ ListSized TextSized p.inputs ∧ ListSized TextSized p.outputs))

instance : DecidablePred WordSized := fun s =>
  inferInstanceAs (Decidable (CircuitSized s.circuit ∧ ListSized PartySized s.parties))

/-! ## Numbers, strings and lists -/

theorem littleEndian_unambiguous (count : Nat) :
    Unambiguous (· < 256 ^ count) (littleEndian count) := by
  induction count with
  | zero =>
      intro a b ha hb xs ys h
      rw [Nat.pow_zero, Nat.lt_one_iff] at ha hb
      exact ⟨ha.trans hb.symm, h⟩
  | succ count ih =>
      intro a b ha hb xs ys h
      rw [Nat.pow_succ, ← Nat.div_lt_iff_lt_mul (by decide)] at ha hb
      simp only [littleEndian, List.cons_append, List.cons.injEq] at h
      obtain ⟨hlow, hhigh⟩ := h
      obtain ⟨hdiv, hrest⟩ := ih ha hb hhigh
      have hmod : a % 256 = b % 256 := by
        have hbyte := congrArg UInt8.toNat hlow
        simpa using hbyte
      exact ⟨by omega, hrest⟩

theorem wordBytes_unambiguous : Unambiguous IsWord wordBytes := littleEndian_unambiguous 8

theorem textBytes_unambiguous : Unambiguous TextSized textBytes := by
  intro a b ha hb xs ys h
  simp only [textBytes, List.append_assoc] at h
  obtain ⟨hlength, h⟩ := wordBytes_unambiguous ha hb h
  obtain ⟨hbytes, hrest⟩ := List.append_inj h hlength
  exact ⟨String.toByteArray_inj.mp (ByteArray.ext (Array.toList_inj.mp hbytes)), hrest⟩

section Parts

variable {α β γ : Type} {P : α → Prop} {f : α → List UInt8}

/-- Elements in a row can be told apart once their number is known. -/
theorem flatMap_unambiguous (hf : Unambiguous P f) :
    ∀ {as bs : List α}, as.length = bs.length → (∀ a ∈ as, P a) → (∀ b ∈ bs, P b) →
      ∀ {xs ys : List UInt8}, as.flatMap f ++ xs = bs.flatMap f ++ ys → as = bs ∧ xs = ys
  | [], [], _, _, _, _, _, h => ⟨rfl, h⟩
  | a :: as, b :: bs, hlength, ha, hb, xs, ys, h => by
      rw [List.forall_mem_cons] at ha hb
      rw [List.flatMap_cons, List.flatMap_cons, List.append_assoc, List.append_assoc] at h
      obtain ⟨hhead, htail⟩ := hf ha.1 hb.1 h
      obtain ⟨hrow, hrest⟩ := flatMap_unambiguous hf (Nat.succ.inj hlength) ha.2 hb.2 htail
      exact ⟨by rw [hhead, hrow], hrest⟩

theorem Unambiguous.list (hf : Unambiguous P f) : Unambiguous (ListSized P) (listBytes f) := by
  intro as bs has hbs xs ys h
  simp only [listBytes, List.append_assoc] at h
  obtain ⟨hlength, h⟩ := wordBytes_unambiguous has.1 hbs.1 h
  exact flatMap_unambiguous hf hlength has.2 hbs.2 h

/-- A value is written by two of its parts one after the other, when they make it up. -/
theorem Unambiguous.append {Q : β → Prop} {g : β → List UInt8} (first : γ → α) (second : γ → β)
    (hf : Unambiguous P f) (hg : Unambiguous Q g)
    (hparts : ∀ a b, first a = first b → second a = second b → a = b) :
    Unambiguous (fun c => P (first c) ∧ Q (second c)) (fun c => f (first c) ++ g (second c)) := by
  intro a b ha hb xs ys h
  simp only [List.append_assoc] at h
  obtain ⟨hfirst, h⟩ := hf ha.1 hb.1 h
  obtain ⟨hsecond, hrest⟩ := hg ha.2 hb.2 h
  exact ⟨hparts a b hfirst hsecond, hrest⟩

end Parts

/-! ## Circuits, parties and setups -/

theorem entryBytes_unambiguous : Unambiguous EntrySized entryBytes :=
  textBytes_unambiguous.append Prod.fst Prod.snd wordBytes_unambiguous fun _ _ => Prod.ext

theorem entries_inj {t u : NameTable Nat} (h : t.entries = u.entries) : t = u := by
  cases t
  cases u
  cases h
  rfl

theorem tableBytes_unambiguous : Unambiguous TableSized tableBytes := by
  intro t u ht hu xs ys h
  obtain ⟨hentries, hrest⟩ := entryBytes_unambiguous.list ht hu h
  exact ⟨entries_inj hentries, hrest⟩

theorem circuitBytes_unambiguous : Unambiguous CircuitSized circuitBytes := by
  have htables := tableBytes_unambiguous.append Prod.fst Prod.snd tableBytes_unambiguous
    fun _ _ => Prod.ext
  refine textBytes_unambiguous.append Circuit.text (fun c => (c.inputs, c.outputs)) htables
    fun a b htext htable => ?_
  obtain ⟨hinputs, houtputs⟩ := Prod.mk.inj htable
  cases a
  cases b
  cases htext
  cases hinputs
  cases houtputs
  rfl

theorem partyBytes_unambiguous : Unambiguous PartySized partyBytes := by
  have hlists := textBytes_unambiguous.list.append Prod.fst Prod.snd textBytes_unambiguous.list
    fun _ _ => Prod.ext
  refine textBytes_unambiguous.append Party.name (fun p => (p.inputs, p.outputs)) hlists
    fun a b hname hlist => ?_
  obtain ⟨hinputs, houtputs⟩ := Prod.mk.inj hlist
  cases a
  cases b
  cases hname
  cases hinputs
  cases houtputs
  rfl

theorem setupBytes_unambiguous : Unambiguous WordSized bytes := by
  refine circuitBytes_unambiguous.append circuit parties partyBytes_unambiguous.list
    fun a b hcircuit hparties => ?_
  cases a
  cases b
  cases hcircuit
  cases hparties
  rfl

/-- The bytes of a setup are at the front of those of another one only when the two are the
same setup.  So the bytes differ when the texts differ, or the tables of names, or anything
about the parties: their names, the inputs and outputs of each, and all their orders. -/
theorem bytes_unambiguous {s s' : Setup} (hs : s.WordSized) (hs' : s'.WordSized) :
    (s.bytes <+: s'.bytes → s.circuit = s'.circuit ∧ s.parties = s'.parties) ∧
    (s.circuit.text ≠ s'.circuit.text ∨ s.circuit.inputs ≠ s'.circuit.inputs ∨
      s.circuit.outputs ≠ s'.circuit.outputs ∨ s.parties ≠ s'.parties → s.bytes ≠ s'.bytes) := by
  have hsame : ∀ rest, s.bytes ++ rest = s'.bytes → s = s' := by
    intro rest h
    rw [← List.append_nil s'.bytes] at h
    exact (setupBytes_unambiguous hs hs' h).1
  constructor
  · rintro ⟨rest, h⟩
    obtain rfl := hsame rest h
    exact ⟨rfl, rfl⟩
  · intro hdiffers hbytes
    obtain rfl := hsame [] ((List.append_nil _).trans hbytes)
    rcases hdiffers with h | h | h | h <;> exact h rfl

/-! ## A list in another order -/

/-- A setup whose first party lists both inputs, in an order at will. -/
def listingSetup (inputs : List String) : Setup :=
  { circuit :=
      { text := "1 3\n2 1 1\n1 1\n2 1 0 1 2 OR"
        inputs := .ofList [("a", 0), ("b", 1)]
        outputs := .ofList [("c", 2)] }
    parties := [⟨"alice", inputs, ["c"]⟩, ⟨"bob", [], ["c"]⟩] }

theorem bytes_unambiguous_listing :
    (listingSetup ["a", "b"]).WordSized ∧ (listingSetup ["b", "a"]).WordSized ∧
      ¬ (listingSetup ["a", "b"]).bytes <+: (listingSetup ["b", "a"]).bytes ∧
      (listingSetup ["a", "b"]).bytes ≠ (listingSetup ["b", "a"]).bytes := by
  have hab : (listingSetup ["a", "b"]).WordSized := by decide
  have hba : (listingSetup ["b", "a"]).WordSized := by decide
  have hparties : (listingSetup ["a", "b"]).parties ≠ (listingSetup ["b", "a"]).parties := by
    decide
  obtain ⟨hfront, hdiffers⟩ := bytes_unambiguous hab hba
  exact ⟨hab, hba, fun h => hparties (hfront h).2, hdiffers (.inr (.inr (.inr hparties)))⟩

end JointCircuit.Setup

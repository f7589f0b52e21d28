import JointCircuit.Compiled.Values
import JointCircuit.Proofs.Sequence
import Mathlib.Algebra.BigOperators.Ring.Finset
import Mathlib.Tactic.Linarith
import Mathlib.Tactic.Positivity
import Mathlib.Tactic.Ring

/-!
# What bits say

An integer that a value gives fits into 64 bits (`Json.int?_eq_some`), so it has room in
128, and its bits are found by a shift at every place (`Bits.encode_ofInt`), also at those
where the encoder asks for the sign.  On `n` wires they are the binary digits of its residue
modulo `2 ^ n` (`Bits.getElem?_ofInt`).  A row of bits writes the natural `Bits.value`, and
reading it back gives that natural when it is below `2 ^ 64` and nothing otherwise
(`Bits.toNat?_eq`).

`encodeSlots_eq_ok` is the same for a whole row of slots: the bits of a party are
those of the integers it gives, slot by slot.  An output is read from the places of
its wires in the output block, which do not depend on what the block holds
(`Compiled.readWires_eq_map`).
-/

namespace JointCircuit

/-- A value gives an integer when it is one that fits into 64 bits. -/
theorem Json.int?_eq_some {value : Json} {v : Int} :
    value.int? = some v ↔ value = .int v ∧ -2 ^ 63 ≤ v ∧ v < 2 ^ 64 := by
  cases value with
  | int n =>
      rw [int?, Option.ite_none_right_eq_some, Option.some.injEq, Json.int.injEq]
      constructor
      · rintro ⟨hrange, rfl⟩
        exact ⟨rfl, by omega⟩
      · rintro ⟨rfl, hrange⟩
        exact ⟨by omega, rfl⟩
  | _ => simp [int?]

namespace Bits

/-! ## Shifts of integers -/

/-- The bits of an integer on `n` wires by shifts at all places, most significant first. -/
def ofInt (v : Int) : Nat → List Bool
  | 0 => []
  | n + 1 => (v >>> n % 2 == 1) :: ofInt v n

@[simp] theorem length_ofInt (v : Int) (n : Nat) : (ofInt v n).length = n := by
  induction n with
  | zero => rfl
  | succ n ih => simp [ofInt, ih]

/-- The lowest bit of an integer is its parity. -/
theorem getLsbD_zero (v : BitVec 128) : v.getLsbD 0 = (v.toInt % 2 == 1) := by
  rw [BitVec.getLsbD, Nat.testBit_zero, BitVec.toInt_eq_toNat_cond, Bool.eq_iff_iff,
    decide_eq_true_iff, beq_iff_eq]
  split <;> omega

/-- A shift by so many places that no bit is left gives copies of the sign. -/
theorem shiftRight_of_le {v : Int} {place : Nat} (hmin : -2 ^ place ≤ v) (hmax : v < 2 ^ place) :
    v >>> place = if v < 0 then -1 else 0 := by
  rw [Int.shiftRight_eq_div_pow]
  push_cast
  split
  · rename_i hneg
    exact Int.ediv_eq_neg_one_of_neg_of_le hneg (by omega)
  · rename_i hpos
    exact Int.ediv_eq_zero_of_lt (by omega) hmax

/-- The bit at any place is found by a shift, for an integer that fits into 128 bits.  From place
128 on there is nothing left but the sign. -/
theorem digit_ofInt {v : Int} (hmin : -2 ^ 127 ≤ v) (hmax : v < 2 ^ 127) (place : Nat) :
    digit (BitVec.ofInt 128 v) place = (v >>> place % 2 == 1) := by
  have hv : (BitVec.ofInt 128 v).toInt = v := BitVec.toInt_ofInt_eq_self (by decide) hmin hmax
  rw [digit]
  split
  · rename_i hplace
    have hpow : (2 : Int) ^ 127 ≤ 2 ^ place := pow_le_pow_right₀ (by decide) (by omega)
    rw [BitVec.slt_eq_decide, hv, BitVec.toInt_zero, shiftRight_of_le (by omega) (by omega)]
    by_cases hneg : v < 0
    · simp [hneg]
    · simp [hneg]
  · rw [getLsbD_zero, BitVec.toInt_sshiftRight, hv]

/-- The encoder writes the bits that shifts give. -/
theorem encode_ofInt {v : Int} (hmin : -2 ^ 127 ≤ v) (hmax : v < 2 ^ 127) (n : Nat) :
    encode (BitVec.ofInt 128 v) n = ofInt v n := by
  induction n with
  | zero => rfl
  | succ n ih => rw [encode, ofInt, digit_ofInt hmin hmax, ih]

/-! ## Integers to bits -/

theorem digit_emod (v : Int) {m n : Nat} (h : m < n) : v % 2 ^ n / 2 ^ m % 2 = v / 2 ^ m % 2 := by
  obtain ⟨k, rfl⟩ : ∃ k, n = m + (k + 1) := ⟨n - m - 1, by omega⟩
  have hpow : (2 : Int) ^ (m + (k + 1)) = 2 ^ m * (2 * 2 ^ k) := by ring
  have hsplit : v = v % 2 ^ (m + (k + 1)) + 2 ^ m * (2 * (2 ^ k * (v / 2 ^ (m + (k + 1))))) := by
    have hdiv := Int.emod_add_mul_ediv v (2 ^ (m + (k + 1)))
    generalize v / 2 ^ (m + (k + 1)) = q at hdiv ⊢
    rw [hpow] at hdiv ⊢
    linarith
  conv_rhs => rw [hsplit]
  rw [Int.add_mul_ediv_left _ _ (by positivity), Int.add_mul_emod_self_left]

theorem testBit_emod (v : Int) {m n : Nat} (h : m < n) :
    (v % 2 ^ n).toNat.testBit m = (v / 2 ^ m % 2 == 1) := by
  have hnonneg : 0 ≤ v % 2 ^ n := Int.emod_nonneg _ (by positivity)
  have hdigit : (((v % 2 ^ n).toNat / 2 ^ m % 2 : Nat) : Int) = v / 2 ^ m % 2 := by
    rw [← digit_emod v h]
    push_cast
    rw [Int.toNat_of_nonneg hnonneg]
  rw [Nat.testBit_eq_decide_div_mod_eq, ← hdigit, Bool.eq_iff_iff, decide_eq_true_iff, beq_iff_eq]
  omega

/-- The bits of an integer are the digits of its residue, the most significant first. -/
theorem getElem?_ofInt (v : Int) {n j : Nat} (h : j < n) :
    (ofInt v n)[j]? = some ((v % 2 ^ n).toNat.testBit (n - 1 - j)) := by
  rw [testBit_emod v (by omega)]
  induction n generalizing j with
  | zero => omega
  | succ n ih =>
      cases j with
      | zero =>
          rw [ofInt, List.getElem?_cons_zero, Int.shiftRight_eq_div_pow]
          push_cast
          rfl
      | succ j =>
          have hindex : n + 1 - 1 - (j + 1) = n - 1 - j := by omega
          rw [ofInt, List.getElem?_cons_succ, ih (by omega), hindex]

/-! ## Bits to naturals -/

/-- The natural that bits write, the most significant first. -/
def value : List Bool → Nat
  | [] => 0
  | b :: bs => bit b * 2 ^ bs.length + value bs

theorem bit_lt (b : Bool) : bit b < 2 := by
  cases b <;> decide

/-- Reading bits behind those of `n` gives the natural of all of them, if there is room. -/
theorem readFrom_eq :
    ∀ {bits : List Bool} {n : Nat}, n < 2 ^ 64 →
      readFrom n bits =
        if n * 2 ^ bits.length + value bits < 2 ^ 64 then some (n * 2 ^ bits.length + value bits)
        else none
  | [], n, h => by
      rw [readFrom, value, List.length_nil, pow_zero, Nat.mul_one, Nat.add_zero, if_pos h]
  | b :: bs, n, h => by
      have hb := bit_lt b
      have hsum : n * 2 ^ (b :: bs).length + value (b :: bs) =
          (2 * n + bit b) * 2 ^ bs.length + value bs := by
        rw [value, List.length_cons, pow_succ]
        ring
      rw [readFrom, hsum]
      split
      · rename_i hfull
        have hpos : 1 ≤ 2 ^ bs.length := Nat.one_le_two_pow
        have hbig : 2 ^ 64 ≤ (2 * n + bit b) * 2 ^ bs.length :=
          Nat.le_trans (by omega) (Nat.le_mul_of_pos_right _ hpos)
        rw [if_neg (by omega)]
      · exact readFrom_eq (by omega)

/-- Bits are read back to the natural they write when it is below `2 ^ 64`. -/
theorem toNat?_eq (bits : List Bool) :
    toNat? bits = if value bits < 2 ^ 64 then some (value bits) else none := by
  rw [toNat?, readFrom_eq (by decide)]
  simp

theorem value_append (bs cs : List Bool) :
    value (bs ++ cs) = value bs * 2 ^ cs.length + value cs := by
  induction bs with
  | nil => rw [List.nil_append, value, Nat.zero_mul, Nat.zero_add]
  | cons b bs ih =>
      rw [List.cons_append, value, value, ih, List.length_append, pow_add]
      ring

theorem value_lt (bs : List Bool) : value bs < 2 ^ bs.length := by
  induction bs with
  | nil => exact Nat.one_pos
  | cons b bs ih =>
      have hb := bit_lt b
      rw [value, List.length_cons, pow_succ]
      nlinarith [Nat.two_pow_pos bs.length]

/-- Whether bits can be read back depends on those above the lowest 64 only. -/
theorem toNat?_eq_none_iff (bits : List Bool) :
    toNat? bits = none ↔ value (bits.take (bits.length - 64)) ≠ 0 := by
  have hsplit := value_append (bits.take (bits.length - 64)) (bits.drop (bits.length - 64))
  have hlow := value_lt (bits.drop (bits.length - 64))
  rw [List.take_append_drop] at hsplit
  rw [toNat?_eq]
  constructor
  · intro hnone hzero
    have hfits : value bits < 2 ^ 64 := by
      rw [hsplit, hzero, Nat.zero_mul, Nat.zero_add]
      refine Nat.lt_of_lt_of_le hlow (Nat.pow_le_pow_right (by decide) ?_)
      rw [List.length_drop]
      omega
    rw [if_pos hfits] at hnone
    cases hnone
  · intro hne
    have hlong : 64 ≤ bits.length := by
      by_contra hshort
      rw [Nat.sub_eq_zero_of_le (by omega), List.take_zero] at hne
      exact hne rfl
    have hlength : (bits.drop (bits.length - 64)).length = 64 := by
      rw [List.length_drop]
      omega
    rw [hlength] at hsplit
    rw [if_neg (by omega)]

/-- The natural that bits write is a sum over them. -/
theorem value_eq_sum (bs : List Bool) :
    value bs = ∑ j ∈ Finset.range bs.length, 2 ^ (bs.length - 1 - j) * bit (bs.getD j false) := by
  induction bs with
  | nil => rfl
  | cons b bs ih =>
      rw [value, ih, List.length_cons, Finset.sum_range_succ', Nat.add_comm]
      refine congrArg₂ (· + ·) (Finset.sum_congr rfl fun j _ => ?_) ?_
      · rw [List.getD_cons_succ]
        congr 2
        omega
      · rw [List.getD_cons_zero, Nat.mul_comm]
        rfl

/-- The natural that successive wires write is a sum over them. -/
theorem value_map (f : Nat → Bool) (first count : Nat) :
    value ((List.range' first count).map f) =
      ∑ j ∈ Finset.range count, 2 ^ (count - 1 - j) * bit (f (first + j)) := by
  rw [value_eq_sum, List.length_map, List.length_range']
  refine Finset.sum_congr rfl fun j hj => ?_
  rw [List.getD_eq_getElem?_getD, List.getElem?_map, List.getElem?_range' (Finset.mem_range.mp hj),
    Nat.one_mul, Option.map_some, Option.getD_some]

end Bits

/-! ## Rows of slots -/

/-- The bits of the integer that a value gives. -/
theorem Slot.encode_eq {s : Slot} {value : Json} {v : Int} (h : value.int? = some v) :
    s.encode value = .ok (Bits.ofInt v s.width) := by
  obtain ⟨_, hmin, hmax⟩ := Json.int?_eq_some.mp h
  rw [Slot.encode, h]
  exact congrArg Except.ok (Bits.encode_ofInt (by omega) (by omega) s.width)

theorem Slot.encode_eq_ok {s : Slot} {value : Json} {bits : List Bool} :
    s.encode value = .ok bits ↔ ∃ v, value.int? = some v ∧ bits = Bits.ofInt v s.width := by
  cases hvalue : value.int? with
  | none => simp [Slot.encode, hvalue]
  | some v => simp [Slot.encode_eq hvalue, eq_comm]

/-- The values of a party are encoded when every slot has an integer, and then to the
bits of these integers. -/
theorem encodeSlots_eq_ok {party : String} {values : Values} :
    ∀ {ss : List Slot} {bits : List Bool}, encodeSlots party values ss = .ok bits →
      (∀ s ∈ ss, ∃ v, (values.find? s.name).bind Json.int? = some v) ∧
      ∀ given : String → Int,
        (∀ s ∈ ss, (values.find? s.name).bind Json.int? = some (given s.name)) →
        bits = ss.flatMap fun s => Bits.ofInt (given s.name) s.width
  | [], _, h => by
      cases h
      exact ⟨fun s hs => absurd hs List.not_mem_nil, fun _ _ => rfl⟩
  | s :: ss, bits, h => by
      unfold encodeSlots at h
      split at h
      · cases h
      · rename_i value hvalue
        obtain ⟨first, hfirst, h⟩ := bind_eq_ok.mp h
        obtain ⟨rest, hrest, h⟩ := bind_eq_ok.mp h
        cases h
        obtain ⟨v, hv, rfl⟩ := Slot.encode_eq_ok.mp hfirst
        obtain ⟨hints, hbits⟩ := encodeSlots_eq_ok hrest
        have hhead : (values.find? s.name).bind Json.int? = some v := by
          rw [hvalue]
          exact hv
        refine ⟨fun t ht => ?_, fun given hgiven => ?_⟩
        · rcases List.mem_cons.mp ht with rfl | ht
          · exact ⟨v, hhead⟩
          · exact hints t ht
        · have hv' : given s.name = v := by
            have := hgiven s (List.mem_cons_self ..)
            rw [hhead] at this
            exact (Option.some.inj this).symm
          rw [List.flatMap_cons, hv',
            hbits given fun t ht => hgiven t (List.mem_cons_of_mem _ ht)]

/-! ## The places of an output -/

namespace Compiled

/-- The places of successive wires in the output block, for the output `name`. -/
def readPlaces (c : Compiled) (name : String) : Nat → Nat → Except EncodingError (List Nat)
  | 0, _ => .ok []
  | count + 1, wire =>
      match c.outputPlace? wire with
      | none => .error (.unmappedOutputWire name wire)
      | some p => do
          let rest ← c.readPlaces name count (wire + 1)
          .ok (p :: rest)

/-- Reading wires is finding their places, which does not depend on the block. -/
theorem readWires_eq_map (c : Compiled) (block : List Bool) (name : String) (count wire : Nat) :
    c.readWires block name count wire =
      (c.readPlaces name count wire).map (List.map fun p => block.getD p false) := by
  induction count generalizing wire with
  | zero => rfl
  | succ count ih =>
      rw [readWires, readPlaces]
      cases c.outputPlace? wire with
      | none => rfl
      | some p =>
          simp only [ih]
          cases c.readPlaces name count (wire + 1) with
          | error e => rfl
          | ok ps => rfl

theorem getElem?_readPlaces {c : Compiled} {name : String} {count wire : Nat} {ps : List Nat}
    (h : c.readPlaces name count wire = .ok ps) :
    ps.length = count ∧ ∀ j < count, ps[j]? = c.outputPlace? (wire + j) := by
  induction count generalizing wire ps with
  | zero =>
      cases h
      exact ⟨rfl, fun j hj => absurd hj (Nat.not_lt_zero j)⟩
  | succ count ih =>
      rw [readPlaces] at h
      cases hp : c.outputPlace? wire with
      | none =>
          rw [hp] at h
          cases h
      | some p =>
          rw [hp] at h
          obtain ⟨rest, hrest, h⟩ := bind_eq_ok.mp h
          cases h
          obtain ⟨hlen, hget⟩ := ih hrest
          refine ⟨congrArg (· + 1) hlen, fun j hj => ?_⟩
          cases j with
          | zero => exact hp.symm
          | succ j =>
              rw [List.getElem?_cons_succ, hget j (by omega)]
              congr 1
              omega

end Compiled

end JointCircuit

import JointCircuit.Proofs.Codec

/-!
# Integers on slots

A slot of `n` wires carries an integer as its residue modulo `2 ^ n`.  The encoder takes each
bit by a shift or, where the integer has no more bits, from the sign, and both are what a
shift of an unbounded integer gives (`Bits.digit_ofInt`).  So the bits on the wires write
the residue (`Bits.value_ofInt`), a negative integer is in two's complement, and a wide one
loses its upper bits.

A row of bits of one length is determined by the natural it writes (`Bits.value_inj`).
So reading a row and encoding the natural on as many wires gives the row back, and the
codec is a bijection between rows of `n` bits and residues.  Reading is partial: a row
can be read when its bits above the lowest 64 are unset (`Bits.toNat?_eq_some_iff`).
-/

namespace JointCircuit

namespace Bits

/-! ## Integers to bits -/

theorem shiftRight_emod_two (v : Int) (n : Nat) : v >>> n % 2 = v / 2 ^ n % 2 := by
  rw [Int.shiftRight_eq_div_pow]
  push_cast
  rfl

theorem bit_beq_one (d : Int) : (bit (d % 2 == 1) : Int) = d % 2 := by
  rcases Int.emod_two_eq_zero_or_one d with h | h <;> rw [h] <;> rfl

/-- A residue is its highest digit and the residue modulo the power below. -/
theorem emod_pow_succ (v : Int) (n : Nat) :
    v % 2 ^ (n + 1) = v / 2 ^ n % 2 * 2 ^ n + v % 2 ^ n := by
  have hlow : v % 2 ^ (n + 1) % 2 ^ n = v % 2 ^ n :=
    Int.emod_emod_of_dvd v (pow_dvd_pow 2 (Nat.le_succ n))
  have hnonneg : 0 ≤ v % 2 ^ (n + 1) / 2 ^ n :=
    Int.ediv_nonneg (Int.emod_nonneg _ (by positivity)) (by positivity)
  have hlt : v % 2 ^ (n + 1) / 2 ^ n < 2 := by
    refine Int.ediv_lt_of_lt_mul (by positivity) ?_
    rw [← pow_succ']
    exact Int.emod_lt_of_pos v (by positivity)
  have hhigh : v % 2 ^ (n + 1) / 2 ^ n = v / 2 ^ n % 2 := by
    rw [← digit_emod v (Nat.lt_succ_self n), Int.emod_eq_of_lt hnonneg hlt]
  rw [← hhigh, ← hlow, Int.ediv_mul_add_emod]

/-- The bits of an integer on `n` wires write its residue modulo `2 ^ n`. -/
theorem value_ofInt (v : Int) (n : Nat) : (value (ofInt v n) : Int) = v % 2 ^ n := by
  induction n with
  | zero => simp [ofInt, value]
  | succ n ih =>
      rw [ofInt, value, length_ofInt, emod_pow_succ, ← ih, ← shiftRight_emod_two]
      push_cast
      rw [bit_beq_one]

/-! ## Rows of one length -/

theorem bit_inj : ∀ {b c : Bool}, bit b = bit c → b = c := by
  decide

/-- Rows of one length that write the same natural are the same. -/
theorem value_inj {bs cs : List Bool} (hlen : bs.length = cs.length) (h : value bs = value cs) :
    bs = cs := by
  induction bs generalizing cs with
  | nil => exact (List.eq_nil_of_length_eq_zero hlen.symm).symm
  | cons b bs ih =>
      cases cs with
      | nil => cases hlen
      | cons c cs =>
          have hlen' : bs.length = cs.length := Nat.succ.inj hlen
          have hlow := value_lt bs
          have hlow' := value_lt cs
          rw [value, value, ← hlen'] at h
          rw [← hlen'] at hlow'
          -- the upper bit is the quotient by the power of the others
          have hquotient : ∀ a x, x < 2 ^ bs.length →
              (a * 2 ^ bs.length + x) / 2 ^ bs.length = a := by
            intro a x hx
            rw [Nat.add_comm, Nat.add_mul_div_right _ _ (Nat.two_pow_pos _), Nat.div_eq_of_lt hx,
              Nat.zero_add]
          have hhead : bit b = bit c := by
            rw [← hquotient (bit b) _ hlow, h, hquotient _ _ hlow']
          have htail : value bs = value cs := by
            rw [hhead] at h
            exact Nat.add_left_cancel h
          rw [bit_inj hhead, ih hlen' htail]

/-- Encoding the natural that a row writes on as many wires gives the row back. -/
theorem ofInt_value (bs : List Bool) : ofInt (value bs) bs.length = bs := by
  refine value_inj (length_ofInt _ _) ?_
  have hlt : (value bs : Int) < 2 ^ bs.length := by exact_mod_cast value_lt bs
  have hvalue := value_ofInt (value bs) bs.length
  rw [Int.emod_eq_of_lt (Int.natCast_nonneg _) hlt] at hvalue
  exact_mod_cast hvalue

theorem value_eq_zero_iff {bs : List Bool} : value bs = 0 ↔ ∀ b ∈ bs, b = false := by
  induction bs with
  | nil => simp [value]
  | cons b bs ih =>
      rw [List.forall_mem_cons, ← ih, value, Nat.add_eq_zero_iff, Nat.mul_eq_zero]
      refine and_congr_left fun _ => ?_
      cases b <;> simp [bit]

/-- A row can be read when its bits above the lowest 64 are unset, and then it is read to
the natural it writes. -/
theorem toNat?_eq_some_iff {bs : List Bool} {u : Nat} :
    toNat? bs = some u ↔ (∀ b ∈ bs.take (bs.length - 64), b = false) ∧ u = value bs := by
  rw [← value_eq_zero_iff]
  constructor
  · intro h
    have hzero : value (bs.take (bs.length - 64)) = 0 := by
      by_contra hne
      rw [(toNat?_eq_none_iff bs).mpr hne] at h
      cases h
    refine ⟨hzero, ?_⟩
    rw [toNat?_eq] at h
    split at h
    · exact (Option.some.inj h).symm
    · cases h
  · rintro ⟨hzero, rfl⟩
    have hsome : toNat? bs ≠ none := fun hnone => (toNat?_eq_none_iff bs).mp hnone hzero
    rw [toNat?_eq] at hsome ⊢
    split
    · rfl
    · rename_i hbig
      exact absurd (if_neg hbig) hsome

end Bits

/-! ## Slots -/

/-- The natural on a slot whose wires have the bits of a row. -/
def Slot.decode (t : Slot) (bits : List Bool) : Except EncodingError Nat :=
  match Bits.toNat? bits with
  | some n => .ok n
  | none => .error (.outputOverflow t.name)

/-- The value of an output is decoded from the bits on its wires. -/
theorem Compiled.decodeSlot_eq_bind (c : Compiled) (block : List Bool) (t : Slot) :
    c.decodeSlot block t = c.readWires block t.name t.extent t.wire >>= t.decode := rfl

namespace Slot

variable {t : Slot} {bits : List Bool} {u : Nat}

theorem decode_eq_ok : t.decode bits = .ok u ↔ Bits.toNat? bits = some u := by
  rw [decode]
  cases Bits.toNat? bits with
  | none => simp
  | some n => simp

/-- A slot is decoded to the natural on its wires when it has 64 bits. -/
theorem decode_eq (t : Slot) (bits : List Bool) :
    t.decode bits = if Bits.value bits < 2 ^ 64 then .ok (Bits.value bits)
      else .error (.outputOverflow t.name) := by
  rw [decode, Bits.toNat?_eq]
  by_cases h : Bits.value bits < 2 ^ 64
  · rw [if_pos h, if_pos h]
  · rw [if_neg h, if_neg h]

theorem lt_of_decode (h : t.decode bits = .ok u) : u < 2 ^ 64 := by
  rw [decode_eq] at h
  split at h
  · cases h
    assumption
  · cases h

/-- The codec of integers.  An integer from `-2 ^ 63` to `2 ^ 64 - 1` is encoded to as many bits
as the slot has wires.  The bit at a place is what a shift by the place gives, also at the
places where the sign is asked for.  The bits write the residue of the integer modulo two to
the number of wires, and they are decoded to the residue when it is below `2 ^ 64`, and
otherwise overflow.  Any row of bits is decoded exactly when its bits above the lowest 64 are
unset, namely to the natural it writes, and this natural is encoded to the same row on as
many wires. -/
theorem codec_modular (t : Slot) :
    (∀ v : Int, -2 ^ 63 ≤ v → v < 2 ^ 64 →
      (∀ place, Bits.digit (BitVec.ofInt 128 v) place = (v >>> place % 2 == 1)) ∧
      ∃ bits, t.encode (.int v) = .ok bits ∧ bits.length = t.width ∧
        (Bits.value bits : Int) = v % 2 ^ t.width ∧
        t.decode bits = if v % 2 ^ t.width < 2 ^ 64 then .ok (v % 2 ^ t.width).toNat
          else .error (.outputOverflow t.name)) ∧
    (∀ (bits : List Bool) (u : Nat),
      (t.decode bits = .ok u ↔
        (∀ b ∈ bits.take (bits.length - 64), b = false) ∧ u = Bits.value bits) ∧
      (t.decode bits = .ok u → Slot.encode { t with width := bits.length } (.nat u) = .ok bits)) ∧
    ∀ (c : Compiled) (block : List Bool),
      c.decodeSlot block t = c.readWires block t.name t.extent t.wire >>= t.decode := by
  refine ⟨fun v hmin hmax => ⟨fun place => ?_, ?_⟩, fun bits u => ⟨?_, ?_⟩,
    fun c block => c.decodeSlot_eq_bind block t⟩
  · exact Bits.digit_ofInt (by omega) (by omega) place
  · have hvalue := Bits.value_ofInt v t.width
    have hint : Json.int? (.int v) = some v := Json.int?_eq_some.mpr ⟨rfl, hmin, hmax⟩
    refine ⟨_, encode_eq hint, Bits.length_ofInt v t.width, hvalue, ?_⟩
    rw [decode_eq, ← hvalue, Int.toNat_natCast]
    norm_cast
  · rw [decode_eq_ok, Bits.toNat?_eq_some_iff]
  · intro h
    have hlt : u < 2 ^ 64 := lt_of_decode h
    obtain ⟨_, rfl⟩ := Bits.toNat?_eq_some_iff.mp (decode_eq_ok.mp h)
    have hint : Json.int? (.nat (Bits.value bits)) = some (Bits.value bits : Int) :=
      Json.int?_eq_some.mpr ⟨rfl, by omega, by exact_mod_cast hlt⟩
    exact (encode_eq hint).trans (congrArg Except.ok (Bits.ofInt_value bits))

/-- Minus one has all bits set on 130 wires and overflows.  Four on 66 wires is read back. -/
theorem codec_modular_wide :
    (∃ bits, Slot.encode ⟨"a", 0, 130⟩ (.int (-1)) = .ok bits ∧ bits.length = 130 ∧
      (Bits.value bits : Int) = 2 ^ 130 - 1 ∧
      Slot.decode ⟨"a", 0, 130⟩ bits = .error (.outputOverflow "a")) ∧
    Slot.decode ⟨"a", 0, 66⟩ (List.replicate 63 false ++ [true, false, false]) = .ok 4 ∧
    Slot.encode ⟨"a", 0, 66⟩ (.nat 4) = .ok (List.replicate 63 false ++ [true, false, false]) := by
  obtain ⟨_, bits, hbits, hlen, hvalue, hdecode⟩ :=
    (codec_modular ⟨"a", 0, 130⟩).1 (-1) (by decide) (by decide)
  have hrow := (codec_modular ⟨"a", 0, 66⟩).2.1
    (List.replicate 63 false ++ [true, false, false]) 4
  have hfour : Slot.decode ⟨"a", 0, 66⟩ (List.replicate 63 false ++ [true, false, false]) = .ok 4 :=
    hrow.1.mpr (by decide)
  refine ⟨⟨bits, hbits, hlen, hvalue.trans (by decide), ?_⟩, hfour, hrow.2 hfour⟩
  rw [hdecode, if_neg (by decide)]

end Slot

end JointCircuit

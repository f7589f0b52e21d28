import JointCircuit.Compiled.Values
import JointCircuit.Proofs.Compiled.Decoding
import JointCircuit.Proofs.Guarded.Compiling

/-!
# Values through a compiled setup, guarded

A party is found by its name, and its slots and the number of its bits are taken by its
index.  The place of a bit in an integer is a difference, and the bit is found by a shift by
its place, which has to be below the number of bits that the integer has.  A bit of the
output block is taken by the place of its wire, and a wire that has none is reported by its
number, which is a sum.

A setup that was compiled has slots and bits for every party, and the places of outputs
are below the length of the block.  With `Guarded.compile_eq` this is the main statement:
compiling, encoding and decoding never break down.
-/

namespace JointCircuit

namespace Guarded

/-! ## Values to bits -/

section

variable {ε : Type}

/-- The bit of an integer at a place.  It is shifted by the place, unless the sign is asked for. -/
def integerDigit (v : BitVec 128) (place : Nat) : Guarded ε Bool :=
  if 128 ≤ place then .ok (v.slt 0#128) else do
    let shifted ← shiftRight v place
    .ok (shifted.getLsbD 0)

/-- The bits of an integer.  The place of the bit at a position is its distance from the last
position. -/
def integerBits (v : BitVec 128) (width : Nat) : Guarded ε (List Bool) :=
  (List.range width).mapM fun i => do
    let last ← minus width 1
    let place ← minus last i
    integerDigit v place

theorem encode_eq_map (v : BitVec 128) : ∀ width : Nat,
    Bits.encode v width = (List.range width).map fun i => Bits.digit v (width - 1 - i)
  | 0 => rfl
  | width + 1 => by
      rw [Bits.encode, encode_eq_map v width, List.range_succ_eq_map, List.map_cons, List.map_map]
      refine congrArg _ (List.map_congr_left fun i _ => ?_)
      rw [Function.comp_apply, show width + 1 - 1 - i.succ = width - 1 - i by omega]

/-- An integer is only shifted by places that it has. -/
theorem integerDigit_eq (v : BitVec 128) (place : Nat) :
    (integerDigit v place : Guarded ε Bool) = .ok (Bits.digit v place) := by
  rw [integerDigit, Bits.digit]
  split
  · rfl
  · rw [shiftRight_eq (by omega), ok_bind]

theorem integerBits_eq (v : BitVec 128) (width : Nat) :
    (integerBits v width : Guarded ε _) = .ok (Bits.encode v width) := by
  rw [encode_eq_map]
  refine mapM_eq fun i hi => ?_
  have hlt := List.mem_range.mp hi
  rw [minus_eq (show 1 ≤ width by omega), ok_bind, minus_eq (show i ≤ width - 1 by omega), ok_bind,
    integerDigit_eq]

end

/-- The bits of a value on a slot. -/
def encodeSlot (t : Slot) (value : Json) : Guarded EncodingError (List Bool) :=
  match value.int? with
  | some v => integerBits (BitVec.ofInt 128 v) t.width
  | none => .error (.refused (.notAnInteger t.name value))

/-- The bits of the values of a party on a row of slots. -/
def encodeSlots (party : String) (values : Values) :
    List Slot → Guarded EncodingError (List Bool)
  | [] => .ok []
  | t :: ts =>
      match values.find? t.name with
      | none => .error (.refused (.missingInput party t.name))
      | some value => do
          let bits ← encodeSlot t value
          let rest ← encodeSlots party values ts
          .ok (bits ++ rest)

/-- The input bits of a party, its slots and the number of its bits taken by its index. -/
def encodeInput (c : Compiled) (party : String) (values : Values) :
    Guarded EncodingError (List Bool) :=
  match c.partyIndex? party with
  | none => .error (.refused (.unknownParty party))
  | some i => do
      let slots ← pick c.inputs i
      match values.keys.find? fun k => !slots.any fun t => t.name == k with
      | some name => .error (.refused (.unexpectedInput party name))
      | none => do
          let _ ← pick c.lowered.partyBits i
          encodeSlots party values slots

theorem encodeSlots_eq (party : String) (values : Values) :
    ∀ ts : List Slot,
      encodeSlots party values ts = refuse (JointCircuit.encodeSlots party values ts)
  | [] => rfl
  | t :: ts => by
      rw [encodeSlots, JointCircuit.encodeSlots]
      cases values.find? t.name with
      | none => rfl
      | some value =>
          have hslot : encodeSlot t value = refuse (t.encode value) := by
            rw [encodeSlot, Slot.encode]
            cases value.int? with
            | none => rfl
            | some v => exact integerBits_eq (BitVec.ofInt 128 v) t.width
          refine bind_eq_refuse hslot fun bits _ => ?_
          exact bind_eq_refuse (encodeSlots_eq party values ts) fun rest _ => rfl

theorem encodeInput_eq {c : Compiled} (hinputs : c.inputs.length = c.parties.length)
    (hbits : c.lowered.partyBits.length = c.parties.length) (party : String) (values : Values) :
    encodeInput c party values = refuse (c.encodeInput party values) := by
  rw [encodeInput, Compiled.encodeInput]
  cases hindex : c.partyIndex? party with
  | none => rfl
  | some i =>
      have hlt : i < c.parties.length := (List.findIdx?_eq_some_iff_getElem.mp hindex).1
      simp only [pick_eq_getD (d := []) (hinputs ▸ hlt), pick_eq_getD (d := 0) (hbits ▸ hlt),
        ok_bind]
      rw [encodeValues]
      cases values.keys.find? fun k => !(c.inputs.getD i []).any fun t => t.name == k with
      | some name => rfl
      | none => exact encodeSlots_eq party values _

/-! ## Bits to values -/

/-- The bits on `count` wires from `wire` on, for the output `name`. -/
def readWires (c : Compiled) (block : List Bool) (name : String) :
    Nat → Nat → Guarded EncodingError (List Bool)
  | 0, _ => .ok []
  | count + 1, wire =>
      match c.outputPlace? wire with
      | none => do
          let wire ← word wire
          .error (.refused (.unmappedOutputWire name wire))
      | some place => do
          let bit ← pick block place
          let rest ← readWires c block name count (wire + 1)
          .ok (bit :: rest)

/-- The value of an output in the output block. -/
def decodeSlot (c : Compiled) (block : List Bool) (t : Slot) : Guarded EncodingError Nat := do
  let bits ← readWires c block t.name t.extent t.wire
  match Bits.toNat? bits with
  | some n => .ok n
  | none => .error (.refused (.outputOverflow t.name))

/-- The values of a row of outputs. -/
def decodeSlots (c : Compiled) (block : List Bool) : List Slot → Guarded EncodingError Results
  | [] => .ok NameTable.empty
  | t :: ts => do
      let v ← decodeSlot c block t
      let rest ← decodeSlots c block ts
      .ok (rest.insert t.name v)

/-- The values of all outputs in the output block. -/
def decodeOutput (c : Compiled) (block : List Bool) : Guarded EncodingError Results :=
  if block.length ≠ c.lowered.outputBits then
    .error (.refused (.wrongBitCount c.lowered.outputBits block.length))
  else decodeSlots c block c.outputs

variable {c : Compiled} {block : List Bool}

/-- A wire is read at a place in the block, or reported by a number that is a word. -/
theorem readWires_eq (hblock : block.length = c.lowered.outputBits) (name : String) :
    ∀ (count wire : Nat), (∀ j < count, wire + j < maxIndex) →
      readWires c block name count wire = refuse (c.readWires block name count wire)
  | 0, _, _ => rfl
  | count + 1, wire, hwires => by
      rw [readWires, Compiled.readWires]
      cases hplace : c.outputPlace? wire with
      | none =>
          have hwire : wire ≤ maxIndex := Nat.le_of_lt (hwires 0 (Nat.succ_pos count))
          simp only [word_eq hwire]
          rfl
      | some place =>
          have hlt : place < block.length := hblock ▸ (Compiled.outputPlace?_eq_some.mp hplace).2
          simp only [pick_eq_getD (d := false) hlt, ok_bind]
          refine bind_eq_refuse (readWires_eq hblock name count (wire + 1) fun j hj => ?_)
            fun rest _ => rfl
          have := hwires (j + 1) (by omega)
          omega

theorem decodeSlot_eq (hblock : block.length = c.lowered.outputBits) (t : Slot) :
    decodeSlot c block t = refuse (c.decodeSlot block t) := by
  have hwires : ∀ j < t.extent, t.wire + j < maxIndex := by
    intro j hj
    rw [Slot.extent, Slot.stop, rangeEnd] at hj
    omega
  refine bind_eq_refuse (readWires_eq hblock t.name t.extent t.wire hwires) fun bits _ => ?_
  cases Bits.toNat? bits with
  | none => rfl
  | some n => rfl

theorem decodeSlots_eq (hblock : block.length = c.lowered.outputBits) :
    ∀ ts : List Slot, decodeSlots c block ts = refuse (c.decodeSlots block ts)
  | [] => rfl
  | t :: ts => by
      refine bind_eq_refuse (decodeSlot_eq hblock t) fun v _ => ?_
      exact bind_eq_refuse (decodeSlots_eq hblock ts) fun rest _ => rfl

theorem decodeOutput_eq (c : Compiled) (block : List Bool) :
    decodeOutput c block = refuse (c.decodeOutput block) := by
  rw [decodeOutput, Compiled.decodeOutput]
  by_cases hblock : block.length = c.lowered.outputBits
  · rw [if_neg (not_not_intro hblock), if_neg (not_not_intro hblock)]
    exact decodeSlots_eq hblock c.outputs
  · rw [if_pos hblock, if_pos hblock]
    rfl

end Guarded

/-! ## Compiling, encoding and decoding -/

namespace Setup

/-- Compiling never breaks down when the numbers of the netlist are words: every name is
found, every wire of a gate is a wire of the circuit, every counter and sum is a word,
every reference gets a place below the number of wires, and the output block is no longer
than the wires.  With whatever was compiled, neither encoding the values of a party, under
any name, nor decoding a row of bits, of any length, breaks down.  In all three what is not
refused has the result of the plain computation. -/
theorem never_breaks (s : Setup) :
    (s.Countable → Guarded.compile s = refuse s.compile) ∧
    ∀ c, s.compile = .ok c →
      (∀ party values, Guarded.encodeInput c party values = refuse (c.encodeInput party values)) ∧
      ∀ block, Guarded.decodeOutput c block = refuse (c.decodeOutput block) := by
  refine ⟨Guarded.compile_eq, fun c hc => ⟨?_, Guarded.decodeOutput_eq c⟩⟩
  obtain ⟨n, ins, outs, p, w, h⟩ := compile_eq_ok_iff.mp hc
  have hinputs : c.inputs.length = c.parties.length := by
    rw [h.result, assemble, partySlots, List.length_map]
  have hbits : c.lowered.partyBits.length = c.parties.length := by
    rw [h.partyBits_eq, h.parties, partySlots, List.length_map, List.length_map]
  exact Guarded.encodeInput_eq hinputs hbits

theorem never_breaks_rewriting : ∃ c, rewritingSetup.compile = .ok c ∧
    rewritingSetup.Countable ∧ Guarded.compile rewritingSetup = .ok c ∧
    Guarded.encodeInput c "alice" (.ofList [("y", .int 1)]) = .ok [true] ∧
    Guarded.decodeOutput c [true] = .error (.refused (.wrongBitCount 3 1)) := by
  obtain ⟨p, w, c, h⟩ := rewritingSetup_compiles
  have hc : rewritingSetup.compile = .ok c := compile_eq_ok_iff.mpr ⟨_, _, _, p, w, h⟩
  have hcount : rewritingSetup.Countable := by
    intro n hn
    obtain rfl : rewritingNetlist = n := Except.ok.inj (h.parse.symm.trans hn)
    exact ⟨by decide, by decide, by decide⟩
  obtain ⟨hcompile, hvalues⟩ := never_breaks rewritingSetup
  obtain ⟨hencode, hdecode⟩ := hvalues c hc
  refine ⟨c, hc, hcount, ?_, ?_, ?_⟩
  · rw [hcompile hcount, hc, refuse_ok]
  · rw [hencode, h.encodeInput_eq (q := ⟨"alice", ["y"], ["u"]⟩) (by decide)]
    rfl
  · have houtput : c.lowered.outputBits = 3 := h.outputBits_eq.trans h.count
    rw [hdecode, Compiled.decodeOutput, houtput]
    rfl

end Setup

end JointCircuit

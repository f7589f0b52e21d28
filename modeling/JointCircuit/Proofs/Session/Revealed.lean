import JointCircuit.Proofs.Codec
import JointCircuit.Proofs.Session.Delivery
import JointCircuit.Proofs.Session.Substitution

/-!
# What a party learns from the output block

A session decodes all outputs of the circuit and then keeps those its party sees.  The
values it keeps are made of the places of the block that belong to these outputs.  But
an output that cannot be decoded fails the session whether the party sees it or not, so
the result depends on one more thing, the fault of decoding (`Compiled.decodeFault`).

Two blocks that agree on the places the party may see lead to the same result exactly
when they have the same fault, whatever happens to the session before and after
(`Session.result_eq_iff_fault_eq`).  The fault depends only on the bits of outputs above
their lowest 64, so blocks that agree on these, too, cannot be told apart.
-/

namespace JointCircuit

/-- The failure of a computation that may fail. -/
def faultOf {ε α : Type} : Except ε α → Option ε
  | .ok _ => none
  | .error e => some e

theorem faultOf_eq_some {ε α : Type} {x : Except ε α} {e : ε} :
    faultOf x = some e ↔ x = .error e := by
  cases x with
  | error e' => simp [faultOf]
  | ok a => simp [faultOf]

theorem faultOf_eq_none {ε α : Type} {x : Except ε α} :
    faultOf x = none ↔ ∃ a, x = .ok a := by
  cases x with
  | error e => simp [faultOf]
  | ok a => simp [faultOf]

/-! ## Restricted tables -/

namespace NameTable

variable {α : Type}

theorem insertEntry_of_lt {k : String} {v : α} {es : List (String × α)}
    (h : ∀ e ∈ es, k < e.1) : insertEntry k v es = (k, v) :: es := by
  cases es with
  | nil => rfl
  | cons e es => rw [insertEntry, if_pos (h e List.mem_cons_self)]

theorem filter_insertEntry (p : String → Bool) (k : String) (v : α) {es : List (String × α)}
    (hsorted : es.Pairwise fun a b => a.1 < b.1) :
    (insertEntry k v es).filter (fun e => p e.1) =
      if p k then insertEntry k v (es.filter fun e => p e.1) else es.filter fun e => p e.1 := by
  induction es with
  | nil => cases hk : p k <;> simp [insertEntry, hk]
  | cons e es ih =>
      obtain ⟨hhead, htail⟩ := List.pairwise_cons.mp hsorted
      obtain ⟨k', v'⟩ := e
      have ih := ih htail
      rw [insertEntry]
      split
      · rename_i hlt
        -- the names that pass are all behind `k`
        have hbehind : ∀ e ∈ ((k', v') :: es).filter (fun e => p e.1), k < e.1 := by
          intro e he
          rcases List.mem_cons.mp (List.mem_of_mem_filter he) with rfl | he
          · exact hlt
          · exact String.lt_trans hlt (hhead e he)
        rw [insertEntry_of_lt hbehind, List.filter_cons]
      · rename_i hnlt
        split
        · rename_i heq
          subst heq
          cases hk : p k with
          | false => simp [hk]
          | true => simp [hk, insertEntry]
        · rename_i hne
          rw [List.filter_cons, List.filter_cons, ih]
          cases hk : p k with
          | false => rfl
          | true =>
              cases hk' : p k' with
              | false => simp only [Bool.false_eq_true, if_false, if_true]
              | true => simp only [if_true, insertEntry, hnlt, hne, if_false]

/-- A test that an inserted name passes keeps the insertion, any other undoes it. -/
theorem restrict_insert (t : NameTable α) (k : String) (v : α) (p : String → Bool) :
    (t.insert k v).restrict p = if p k then (t.restrict p).insert k v else t.restrict p := by
  have hentries := filter_insertEntry p k v t.sorted
  cases hk : p k with
  | false =>
      simp only [hk, Bool.false_eq_true, if_false] at hentries ⊢
      simp only [restrict, insert, hentries]
  | true =>
      simp only [hk, if_true] at hentries ⊢
      simp only [restrict, insert, hentries]

end NameTable

/-! ## Reading an output -/

namespace Compiled

variable {c : Compiled} {b b' : List Bool}

/-- A place of the output block belongs to an output. -/
def PlaceOf (c : Compiled) (o : Slot) (p : Nat) : Prop :=
  ∃ j < o.extent, c.outputPlace? (o.wire + j) = some p

/-- A place of the output block has a bit of an output above its lowest 64. -/
def HighPlaceOf (c : Compiled) (o : Slot) (p : Nat) : Prop :=
  ∃ j, j + 64 < o.extent ∧ c.outputPlace? (o.wire + j) = some p

/-- Blocks that agree on the places of an output decode it alike. -/
theorem decodeSlot_congr {o : Slot} (h : ∀ p, c.PlaceOf o p → b[p]? = b'[p]?) :
    c.decodeSlot b o = c.decodeSlot b' o := by
  have hread : c.readWires b o.name o.extent o.wire = c.readWires b' o.name o.extent o.wire := by
    rw [readWires_eq_map, readWires_eq_map]
    cases hplaces : c.readPlaces o.name o.extent o.wire with
    | error e => rfl
    | ok ps =>
        obtain ⟨hlen, hget⟩ := getElem?_readPlaces hplaces
        refine congrArg Except.ok (List.map_congr_left fun p hp => ?_)
        obtain ⟨j, hj⟩ := List.mem_iff_getElem?.mp hp
        have hlt : j < o.extent := hlen ▸ (List.getElem?_eq_some_iff.mp hj).1
        simp only [List.getD_eq_getElem?_getD, h p ⟨j, hlt, (hget j hlt).symm.trans hj⟩]
  rw [decodeSlot, decodeSlot, hread]

/-- Blocks that agree on the high places of an output both decode it or both do not. -/
theorem faultOf_decodeSlot_congr {o : Slot} (h : ∀ p, c.HighPlaceOf o p → b[p]? = b'[p]?) :
    faultOf (c.decodeSlot b o) = faultOf (c.decodeSlot b' o) := by
  rw [decodeSlot, decodeSlot, readWires_eq_map, readWires_eq_map]
  cases hplaces : c.readPlaces o.name o.extent o.wire with
  | error e => rfl
  | ok ps =>
      obtain ⟨hlen, hget⟩ := getElem?_readPlaces hplaces
      have hhigh : (ps.take (ps.length - 64)).map (fun p => b.getD p false) =
          (ps.take (ps.length - 64)).map fun p => b'.getD p false := by
        refine List.map_congr_left fun p hp => ?_
        obtain ⟨j, hj⟩ := List.mem_iff_getElem?.mp hp
        have hlt : j + 64 < o.extent := by
          have hbound := (List.getElem?_eq_some_iff.mp hj).1
          rw [List.length_take] at hbound
          omega
        rw [List.getElem?_take_of_lt (by omega)] at hj
        simp only [List.getD_eq_getElem?_getD,
          h p ⟨j, hlt, (hget j (by omega)).symm.trans hj⟩]
      have hnone : Bits.toNat? (ps.map fun p => b.getD p false) = none ↔
          Bits.toNat? (ps.map fun p => b'.getD p false) = none := by
        rw [Bits.toNat?_eq_none_iff, Bits.toNat?_eq_none_iff, List.length_map, List.length_map,
          ← List.map_take, ← List.map_take, hhigh]
      simp only [Except.map, ok_bind]
      cases hb : Bits.toNat? (ps.map fun p => b.getD p false) with
      | none => rw [hnone.mp hb]
      | some v =>
          cases hb' : Bits.toNat? (ps.map fun p => b'.getD p false) with
          | none =>
              rw [hnone.mpr hb'] at hb
              cases hb
          | some v' => rfl

/-! ## All outputs -/

theorem faultOf_decodeSlots_cons (c : Compiled) (block : List Bool) (o : Slot) (os : List Slot) :
    faultOf (c.decodeSlots block (o :: os)) =
      (faultOf (c.decodeSlot block o)).or (faultOf (c.decodeSlots block os)) := by
  rw [decodeSlots]
  cases c.decodeSlot block o with
  | error e => rfl
  | ok v =>
      cases c.decodeSlots block os with
      | error e => rfl
      | ok r => rfl

theorem faultOf_decodeSlots_congr {os : List Slot}
    (h : ∀ o ∈ os, faultOf (c.decodeSlot b o) = faultOf (c.decodeSlot b' o)) :
    faultOf (c.decodeSlots b os) = faultOf (c.decodeSlots b' os) := by
  induction os with
  | nil => rfl
  | cons o os ih =>
      rw [List.forall_mem_cons] at h
      rw [faultOf_decodeSlots_cons, faultOf_decodeSlots_cons, h.1, ih h.2]

/-- Outputs that are decoded alike make equal tables, restricted to their names. -/
theorem restrict_decodeSlots {seen : String → Bool} {os : List Slot} {r r' : Results}
    (h : ∀ o ∈ os, seen o.name = true → c.decodeSlot b o = c.decodeSlot b' o)
    (hr : c.decodeSlots b os = .ok r) (hr' : c.decodeSlots b' os = .ok r') :
    r.restrict seen = r'.restrict seen := by
  induction os generalizing r r' with
  | nil =>
      cases hr
      cases hr'
      rfl
  | cons o os ih =>
      rw [List.forall_mem_cons] at h
      obtain ⟨v, hv, hr⟩ := bind_eq_ok.mp hr
      obtain ⟨rest, hrest, hr⟩ := bind_eq_ok.mp hr
      obtain ⟨v', hv', hr'⟩ := bind_eq_ok.mp hr'
      obtain ⟨rest', hrest', hr'⟩ := bind_eq_ok.mp hr'
      cases hr
      cases hr'
      rw [NameTable.restrict_insert, NameTable.restrict_insert, ih h.2 hrest hrest']
      cases hseen : seen o.name with
      | false => rfl
      | true =>
          have hsame := h.1 hseen
          rw [hv, hv'] at hsame
          rw [Except.ok.inj hsame]

/-- Why an output block cannot be decoded: the fault of its first output that cannot. -/
def decodeFault (c : Compiled) (block : List Bool) : Option EncodingError :=
  faultOf (c.decodeOutput block)

/-- A place of the output block belongs to an output that a party sees. -/
def Revealed (c : Compiled) (party : Nat) (p : Nat) : Prop :=
  ∃ q, c.parties[party]? = some q ∧ ∃ o ∈ c.outputs, o.name ∈ q.outputs ∧ c.PlaceOf o p

theorem decodeOutput_eq {block : List Bool} (h : block.length = c.lowered.outputBits) :
    c.decodeOutput block = c.decodeSlots block c.outputs := by
  rw [decodeOutput, if_neg fun hne => hne h]

/-- The fault depends on the high places of the outputs only. -/
theorem decodeFault_congr (hlen : b.length = c.lowered.outputBits)
    (hlen' : b'.length = c.lowered.outputBits)
    (h : ∀ o ∈ c.outputs, ∀ p, c.HighPlaceOf o p → b[p]? = b'[p]?) :
    c.decodeFault b = c.decodeFault b' := by
  rw [decodeFault, decodeFault, decodeOutput_eq hlen, decodeOutput_eq hlen']
  exact faultOf_decodeSlots_congr fun o ho => faultOf_decodeSlot_congr (h o ho)

end Compiled

/-! ## The result of a session -/

/-- The end with other bits in the stead of some. -/
def EngineResult.replace (b b' : List Bool) : EngineResult → EngineResult
  | .returned bits => .returned (if bits = b then b' else bits)
  | .failed text => .failed text
  | .crashed text => .crashed text

namespace Session

variable {c : Compiled} {party : Nat} {b b' : List Bool}

theorem outcome_of_fault {s : Session} {bits : List Bool} {e : EncodingError}
    (h : s.compiled.decodeFault bits = some e) : s.outcome bits = .error (.encoding e) := by
  rw [outcome, faultOf_eq_some.mp h]

theorem outcome_of_fault_none {s : Session} {bits : List Bool}
    (h : s.compiled.decodeFault bits = none) : ∃ r, s.outcome bits = .ok r := by
  obtain ⟨r, hr⟩ := faultOf_eq_none.mp h
  rw [outcome, hr]
  exact ⟨_, rfl⟩

/-- Blocks that agree on what the party sees are the same to its session exactly when they
have the same fault. -/
theorem outcome_eq_iff (hlen : b.length = c.lowered.outputBits)
    (hlen' : b'.length = c.lowered.outputBits)
    (hsame : ∀ p, c.Revealed party p → b[p]? = b'[p]?) {s : Session} (hc : s.compiled = c)
    (hp : s.party = party) :
    s.outcome b = s.outcome b' ↔ c.decodeFault b = c.decodeFault b' := by
  subst hc hp
  have hslots : ∀ o ∈ s.compiled.outputs,
      ((s.compiled.parties[s.party]?.map Party.outputs).getD []).contains o.name = true →
        s.compiled.decodeSlot b o = s.compiled.decodeSlot b' o := by
    intro o ho hseen
    cases hq : s.compiled.parties[s.party]? with
    | none => simp [hq] at hseen
    | some q =>
        rw [hq, Option.map_some, Option.getD_some, List.contains_iff_mem] at hseen
        exact Compiled.decodeSlot_congr fun p hplace => hsame p ⟨q, hq, o, ho, hseen, hplace⟩
  rw [outcome, outcome, Compiled.decodeFault, Compiled.decodeFault,
    Compiled.decodeOutput_eq hlen, Compiled.decodeOutput_eq hlen']
  cases hr : s.compiled.decodeSlots b s.compiled.outputs with
  | error e =>
      cases hr' : s.compiled.decodeSlots b' s.compiled.outputs with
      | error e' => simp [faultOf]
      | ok r' => simp [faultOf]
  | ok r =>
      cases hr' : s.compiled.decodeSlots b' s.compiled.outputs with
      | error e' => simp [faultOf]
      | ok r' =>
          have hrestrict := Compiled.restrict_decodeSlots hslots hr hr'
          simp only [faultOf, hrestrict]

theorem blind_replace {s : Session} (h : s.outcome b = s.outcome b') :
    s.Blind (.replace b b') := by
  intro result
  cases result with
  | returned bits =>
      by_cases heq : bits = b
      · subst heq
        simp only [EngineResult.replace, if_true, verdict, h]
      · simp only [EngineResult.replace, if_neg heq]
  | failed text => rfl
  | crashed text => rfl

/-- Two output blocks agree on the places of the outputs that a party sees.  A session of
this party gets the same result from both exactly when they have the same fault.  Then
its history is the same whichever of the two its engine returns: if in the stead of the
one the other is returned, the session has the same result after any events.  Blocks that
also agree on the bits of all outputs above the lowest 64 have the same fault. -/
theorem result_eq_iff_fault_eq {c : Compiled} {party : Nat} {b b' : List Bool}
    (hlen : b.length = c.lowered.outputBits) (hlen' : b'.length = c.lowered.outputBits)
    (hsame : ∀ p, c.Revealed party p → b[p]? = b'[p]?) :
    (∀ s : Session, s.compiled = c → s.party = party → s.result = none →
      ((s.finish (.returned b)).result = (s.finish (.returned b')).result ↔
        c.decodeFault b = c.decodeFault b')) ∧
    (c.decodeFault b = c.decodeFault b' →
      ∀ name values program faulty s es, c.partyIndex? name = some party →
        start c name values program faulty = .ok s →
        ∃ s', start c name values (program.mapEnd (.replace b b')) faulty = .ok s' ∧
          (s'.steps es).result = (s.steps es).result) ∧
    ((∀ o ∈ c.outputs, ∀ p, c.HighPlaceOf o p → b[p]? = b'[p]?) →
      c.decodeFault b = c.decodeFault b') := by
  refine ⟨?_, ?_, Compiled.decodeFault_congr hlen hlen'⟩
  · intro s hc hp hresult
    have hfinish : ∀ bits, (s.finish (.returned bits)).result = some (s.outcome bits) := by
      intro bits
      rw [finish_eq, conclude_eq, hresult]
      rfl
    rw [hfinish, hfinish, Option.some.injEq]
    exact outcome_eq_iff hlen hlen' hsame hc hp
  · intro hfault name values program faulty s es hname hstart
    have hstanding := start_standing hstart
    have hblind : s.Blind (.replace b b') := by
      obtain ⟨party', _, hparty, _, rfl⟩ := start_eq_ok hstart
      obtain rfl : party = party' := Option.some.inj (hname.symm.trans hparty)
      exact blind_replace ((outcome_eq_iff hlen hlen' hsame rfl rfl).mpr hfault)
    refine ⟨s.mapEnd (.replace b b'), ?_, ?_⟩
    · rw [start_mapEnd, hstart]
      rfl
    · rw [hstanding.steps_mapEnd hblind]
      rfl

/-! ## An output of another party -/

theorem advance_eq (s : Session) (stage : Stage) :
    s.advance stage = { s with stage := if s.stage.isFinal then s.stage else stage } := by
  rw [advance]
  split <;> rfl

/-- An engine that only returns bits ends the session with their outcome. -/
theorem startEngine_returned {s : Session} {bits : List Bool}
    (hengine : s.engine = .finish (.returned bits)) (hresult : s.result = none) :
    s.startEngine.result = some (s.outcome bits) := by
  simp only [startEngine, advance_eq, record, hengine, drive, finish_eq, conclude_eq, hresult,
    Option.getD_none]
  rfl

/-- A session with one peer ends with its engine once the fingerprint of the peer is
there. -/
theorem steps_greeted {c : Compiled} {name peer : String} {values : Values} {bits : List Bool}
    {least most q : Nat} {s : Session}
    (hstart : start c name values ⟨least, most, fun _ => .finish (.returned bits)⟩
      (fun _ => none) = .ok s) (hpeers : s.peers = [q]) (hq : s.peerNamed? peer = some q) :
    (s.steps [.message peer (0 :: c.fingerprint.bytes), .run]).result =
      some (s.outcome bits) := by
  have hstanding := start_standing hstart
  have hempty : s.inbox q .setup = [] := inbox_steps hstart [] q .setup
  obtain ⟨party, inputs, _, _, rfl⟩ := start_eq_ok hstart
  obtain ⟨t, hc, hp, hengine, hresult, hrun⟩ := hstanding.run_greeted
    ⟨rfl, .inr ⟨rfl, fun _ _ => rfl⟩⟩ rfl hpeers hq hempty
  have hend := startEngine_returned hengine hresult
  rw [← hrun, outcome, hc, hp] at hend
  exact hend

/-- The characters of a text with an output of one bit and an output of 65 bits. -/
def wideChars : List Char :=
  "66 68\n2 1 1\n2 1 65\n".toList ++
    (List.range' 2 66).flatMap fun wire =>
      "1 1 0 ".toList ++ Nat.toDigits 10 wire ++ " NOT\n".toList

/-- A setup whose first party sees the output of one bit, and the second party the output
of 65 bits. -/
def wideSetup : Setup :=
  { circuit :=
      { text := .ofList wideChars
        inputs := .ofList [("a", 0), ("b", 1)]
        outputs := .ofList [("u", 2), ("v", 3)] }
    parties := [⟨"p0", ["a"], ["u"]⟩, ⟨"p1", ["b"], ["v"]⟩] }

/-- An output block with the highest and the lowest bit of the output of 65 bits. -/
def wideBlock (high low : Bool) : List Bool := false :: high :: (List.replicate 63 false ++ [low])

/-- What the sessions below need of the compiled setup. -/
structure IsWide (c : Compiled) : Prop where
  parties : c.parties = wideSetup.parties
  inputs : c.inputs = [[⟨"a", 0, 1⟩], [⟨"b", 1, 1⟩]]
  outputs : c.outputs = [⟨"u", 2, 1⟩, ⟨"v", 3, 65⟩]
  outputBits : c.lowered.outputBits = 66
  place_u : c.readPlaces "u" 1 2 = .ok [0]
  places_v : c.readPlaces "v" 65 3 = .ok (List.range' 1 65)

theorem wideSetup_compile : ∃ c, wideSetup.compile = .ok c ∧ IsWide c := by
  have hfacts : ∃ c, wideSetup.compile = .ok c ∧ c.parties = wideSetup.parties ∧
      c.inputs = [[⟨"a", 0, 1⟩], [⟨"b", 1, 1⟩]] ∧ c.outputs = [⟨"u", 2, 1⟩, ⟨"v", 3, 65⟩] ∧
      c.lowered.outputBits = 66 ∧ (c.readPlaces "u" 1 2).toOption = some [0] ∧
      (c.readPlaces "v" 65 3).toOption = some (List.range' 1 65) := by
    refine exists_ok_and_of_any ?_
    -- the characters of the text are known, which evaluation would have to find again
    rw [Setup.compile, Netlist.parse, wideSetup, String.toList_ofList]
    decide +kernel
  obtain ⟨c, hc, hparties, hinputs, houtputs, hbits, hu, hv⟩ := hfacts
  exact ⟨c, hc, hparties, hinputs, houtputs, hbits, toOption_eq_some.mp hu,
    toOption_eq_some.mp hv⟩

namespace IsWide

variable {c : Compiled} {high low : Bool}

theorem length_wideBlock (h : IsWide c) : (wideBlock high low).length = c.lowered.outputBits := by
  rw [h.outputBits]
  rfl

/-- The output of 65 bits fits when its highest bit is not set. -/
theorem decodeFault_wideBlock (h : IsWide c) :
    c.decodeFault (wideBlock high low) = if high then some (.outputOverflow "v") else none := by
  have hu : c.decodeSlot (wideBlock high low) ⟨"u", 2, 1⟩ = .ok 0 := by
    rw [Compiled.decodeSlot]
    change (c.readWires (wideBlock high low) "u" 1 2 >>= _) = _
    rw [Compiled.readWires_eq_map, h.place_u]
    rfl
  have hv : c.decodeSlot (wideBlock high low) ⟨"v", 3, 65⟩ =
      if high then .error (.outputOverflow "v") else .ok low.toNat := by
    rw [Compiled.decodeSlot]
    change (c.readWires (wideBlock high low) "v" 65 3 >>= _) = _
    rw [Compiled.readWires_eq_map, h.places_v]
    cases high <;> cases low <;> rfl
  rw [Compiled.decodeFault, Compiled.decodeOutput_eq h.length_wideBlock, h.outputs,
    Compiled.decodeSlots, hu, ok_bind, Compiled.decodeSlots, hv]
  cases high <;> rfl

/-- The first party sees the first place of the block. -/
theorem eq_zero_of_revealed (h : IsWide c) {p : Nat} (hp : c.Revealed 0 p) : p = 0 := by
  obtain ⟨q, hq, o, ho, hseen, j, hj, hplace⟩ := hp
  rw [h.parties] at hq
  obtain rfl : ⟨"p0", ["a"], ["u"]⟩ = q := Option.some.inj hq
  rw [h.outputs] at ho
  simp only [List.mem_cons, List.not_mem_nil, or_false] at ho hseen
  rcases ho with rfl | rfl
  · obtain rfl : j = 0 := Nat.lt_one_iff.mp hj
    have hget := (Compiled.getElem?_readPlaces h.place_u).2 0 Nat.one_pos
    exact Option.some.inj (hplace.symm.trans hget.symm)
  · exact absurd hseen (by decide)

end IsWide

/-- The first party whose engine returns a block. -/
def startWide (c : Compiled) (bits : List Bool) : Except SessionError Session :=
  start c "p0" (.ofList [("a", .int 0)]) ⟨2, 2, fun _ => .finish (.returned bits)⟩
    fun _ => none

/-- The fingerprint of the second party arrives, and the worker of the first party runs. -/
def wideEvents (c : Compiled) : List Event := [.message "p1" (0 :: c.fingerprint.bytes), .run]

theorem IsWide.settles {c : Compiled} (h : IsWide c) (bits : List Bool) :
    ∃ s, startWide c bits = .ok s ∧
      (s.steps (wideEvents c)).result = some (s.outcome bits) ∧ s.compiled = c ∧ s.party = 0 := by
  have hparty : c.partyIndex? "p0" = some 0 := by
    rw [Compiled.partyIndex?, h.parties]
    rfl
  have hencode : c.encodeInput "p0" (.ofList [("a", .int 0)]) = .ok [false] := by
    rw [Compiled.encodeInput, hparty, h.inputs]
    rfl
  obtain ⟨s, hs⟩ : ∃ s, startWide c bits = .ok s := by
    rw [startWide, start, h.parties, hparty, hencode]
    exact ⟨_, rfl⟩
  obtain ⟨party, _, hparty', _, rfl⟩ := start_eq_ok hs
  obtain rfl : 0 = party := Option.some.inj (hparty.symm.trans hparty')
  refine ⟨_, hs, steps_greeted (q := 1) hs ?_ ?_, rfl, rfl⟩
  · rw [peers, h.parties]
    rfl
  · rw [peerNamed?, Compiled.partyIndex?, h.parties]
    rfl

/-- Blocks that differ in the highest bit of an output the first party does not see.  From
one of them its session fails and names this output, from the other it has results. -/
theorem result_ne_highBit : ∃ c s s', wideSetup.compile = .ok c ∧
    (wideBlock true false).length = c.lowered.outputBits ∧
    (wideBlock false false).length = c.lowered.outputBits ∧
    (∀ p, c.Revealed 0 p → (wideBlock true false)[p]? = (wideBlock false false)[p]?) ∧
    startWide c (wideBlock true false) = .ok s ∧ startWide c (wideBlock false false) = .ok s' ∧
    (s.steps (wideEvents c)).result = some (.error (.encoding (.outputOverflow "v"))) ∧
    ∃ r, (s'.steps (wideEvents c)).result = some (.ok r) := by
  obtain ⟨c, hc, h⟩ := wideSetup_compile
  obtain ⟨s, hs, hsteps, hcompiled, _⟩ := h.settles (wideBlock true false)
  obtain ⟨s', hs', hsteps', hcompiled', _⟩ := h.settles (wideBlock false false)
  have hfault : s.compiled.decodeFault (wideBlock true false) = some (.outputOverflow "v") :=
    hcompiled ▸ h.decodeFault_wideBlock
  have hfault' : s'.compiled.decodeFault (wideBlock false false) = none :=
    hcompiled' ▸ h.decodeFault_wideBlock
  obtain ⟨r, hr⟩ := outcome_of_fault_none hfault'
  refine ⟨c, s, s', hc, h.length_wideBlock, h.length_wideBlock, fun p hp => ?_, hs, hs', ?_, ?_⟩
  · rw [h.eq_zero_of_revealed hp]
    rfl
  · rw [hsteps, outcome_of_fault hfault]
  · exact ⟨r, hsteps'.trans (congrArg some hr)⟩

/-- A bit of the output of 65 bits that fits is not seen. -/
theorem result_eq_iff_fault_eq_lowBit : ∃ c, wideSetup.compile = .ok c ∧
    ∀ s : Session, s.compiled = c → s.party = 0 → s.result = none →
      (s.finish (.returned (wideBlock false true))).result =
        (s.finish (.returned (wideBlock false false))).result := by
  obtain ⟨c, hc, h⟩ := wideSetup_compile
  refine ⟨c, hc, fun s hcompiled hparty hresult => ?_⟩
  refine ((result_eq_iff_fault_eq h.length_wideBlock h.length_wideBlock ?_).1 s hcompiled hparty
    hresult).mpr ?_
  · intro p hp
    rw [h.eq_zero_of_revealed hp]
    rfl
  · rw [h.decodeFault_wideBlock, h.decodeFault_wideBlock]

end Session

end JointCircuit

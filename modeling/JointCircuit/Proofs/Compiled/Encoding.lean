import JointCircuit.Proofs.Compiled.Meaning
import JointCircuit.Proofs.NameTable

/-!
# Which values are encoded

A party gives a value for every input it lists, and each has to be an integer
(`Setup.AcceptsValues`).  `Setup.RefusesValues` says why values are refused, with one case
for each error.  A name that no party has comes first, then the least name that the party
does not list, then the first of its inputs without an integer.  Inputs come by their first
wires, those of one wire by their names.

`encodeInput_exact` says that the two are what encoding accepts and what it refuses,
and which bits it gives.
-/

namespace JointCircuit

/-! ## Integers under names -/

/-- The value under a name is an integer. -/
def Values.Gives (values : Values) (name : String) : Prop :=
  ∃ v, (values.find? name).bind Json.int? = some v

/-- Values that are integers under names are given by one function. -/
theorem Values.exists_given {values : Values} {names : List String}
    (h : ∀ name ∈ names, values.Gives name) :
    ∃ given : String → Int, ∀ name ∈ names,
      (values.find? name).bind Json.int? = some (given name) := by
  refine ⟨fun name => ((values.find? name).bind Json.int?).getD 0, fun name hname => ?_⟩
  obtain ⟨v, hv⟩ := h name hname
  simp only [hv, Option.getD_some]

/-! ## Rows of slots -/

section

variable {party : String} {values : Values}

/-- Integers on all slots are encoded one after another. -/
theorem encodeSlots_of_given {given : String → Int} :
    ∀ {ts : List Slot},
      (∀ t ∈ ts, (values.find? t.name).bind Json.int? = some (given t.name)) →
      encodeSlots party values ts = .ok (ts.flatMap fun t => Bits.ofInt (given t.name) t.width)
  | [], _ => rfl
  | t :: ts, h => by
      rw [List.forall_mem_cons] at h
      obtain ⟨value, hvalue, hint⟩ := Option.bind_eq_some_iff.mp h.1
      simp only [encodeSlots, hvalue, Slot.encode_eq hint, ok_bind, encodeSlots_of_given h.2,
        List.flatMap_cons]

/-- Slots with integers do not change what is wrong behind them. -/
theorem encodeSlots_append_eq_error {us : List Slot} {e : EncodingError} :
    ∀ {ts : List Slot}, (∀ t ∈ ts, values.Gives t.name) →
      encodeSlots party values us = .error e → encodeSlots party values (ts ++ us) = .error e
  | [], _, he => he
  | t :: ts, h, he => by
      rw [List.forall_mem_cons] at h
      obtain ⟨v, hv⟩ := h.1
      obtain ⟨value, hvalue, hint⟩ := Option.bind_eq_some_iff.mp hv
      simp only [List.cons_append, encodeSlots, hvalue, Slot.encode_eq hint, ok_bind,
        encodeSlots_append_eq_error h.2 he, error_bind]

theorem encodeSlots_of_missing {t : Slot} {ts : List Slot} (h : values.find? t.name = none) :
    encodeSlots party values (t :: ts) = .error (.missingInput party t.name) := by
  simp only [encodeSlots, h]

theorem encodeSlots_of_notInteger {t : Slot} {ts : List Slot} {value : Json}
    (h : values.find? t.name = some value) (hvalue : value.int? = none) :
    encodeSlots party values (t :: ts) = .error (.notAnInteger t.name value) := by
  simp only [encodeSlots, h, Slot.encode, hvalue, error_bind]

end

/-! ## Values of a party -/

namespace Slot

theorem not_before_of_before (a b : String × Nat) (hab : Before a b) : ¬ Before b a := by
  intro hba
  obtain rfl := before_asymm hab hba
  rcases hab with hlt | ⟨_, hlt⟩
  · exact Nat.lt_irrefl _ hlt
  · exact String.lt_irrefl _ hlt

theorem Ranked.pairwise_select {table : NameTable Nat} {widths : List Nat} {slots : List Slot}
    (h : Ranked table widths slots) (names : List String) :
    (select slots names).Pairwise fun t u => Before t.entry u.entry :=
  (List.pairwise_map.mp h.sorted).filter _

/-- The slot is of an input listed, and the inputs listed that come before it have
integers. -/
def Reached (slots : List Slot) (names : List String) (values : Values) (t : Slot) : Prop :=
  t ∈ slots ∧ t.name ∈ names ∧
    ∀ u ∈ slots, u.name ∈ names → Before u.entry t.entry → values.Gives u.name

theorem reached_iff {table : NameTable Nat} {widths : List Nat} {slots : List Slot}
    (h : Ranked table widths slots) {names : List String} {values : Values} {t : Slot} :
    Reached slots names values t ↔ ∃ before after,
      select slots names = before ++ t :: after ∧ ∀ u ∈ before, values.Gives u.name := by
  rw [exists_split_iff (fun t u => not_before_of_before t.entry u.entry) (h.pairwise_select names)]
  simp only [Setup.mem_select, Reached, and_imp, and_assoc]

end Slot

namespace Setup

/-- A party has the name, the values are under the names of its inputs, and all of them are
integers. -/
def AcceptsValues (s : Setup) (name : String) (values : Values) : Prop :=
  ∃ q ∈ s.parties, q.name = name ∧ (∀ key, key ∈ values.keys ↔ key ∈ q.inputs) ∧
    ∀ key ∈ values.keys, values.Gives key

/-- Why the values given under a name are refused. -/
inductive RefusesValues (s : Setup) (ins : List Slot) (name : String) (values : Values) :
    EncodingError → Prop where
  | stranger : (∀ q ∈ s.parties, q.name ≠ name) →
      RefusesValues s ins name values (.unknownParty name)
  | unexpected {q : Party} {key : String} : q ∈ s.parties → q.name = name →
      LeastMissing values.keys q.inputs key →
      RefusesValues s ins name values (.unexpectedInput name key)
  | missing {q : Party} {t : Slot} : q ∈ s.parties → q.name = name →
      (∀ key ∈ values.keys, key ∈ q.inputs) → t.Reached ins q.inputs values →
      t.name ∉ values.keys → RefusesValues s ins name values (.missingInput name t.name)
  | notInteger {q : Party} {t : Slot} {value : Json} : q ∈ s.parties → q.name = name →
      (∀ key ∈ values.keys, key ∈ q.inputs) → t.Reached ins q.inputs values →
      values.find? t.name = some value → value.int? = none →
      RefusesValues s ins name values (.notAnInteger t.name value)

namespace Compiles

variable {s : Setup} {n : Netlist} {ins outs : List Slot} {p : Placement} {w : Walk} {c : Compiled}
variable {q : Party} {values : Values} {name : String}

theorem encodeInput_of_stranger (h : s.Compiles n ins outs p w c)
    (hname : ∀ q ∈ s.parties, q.name ≠ name) :
    c.encodeInput name values = .error (.unknownParty name) := by
  have hindex : c.partyIndex? name = none := by
    rw [Compiled.partyIndex?, h.parties, partyIndex?, List.findIdx?_eq_none_iff]
    exact fun q hq => beq_eq_false_iff_ne.mpr (hname q hq)
  rw [Compiled.encodeInput, hindex]

/-- The inputs a party lists have slots. -/
theorem exists_slot (h : s.Compiles n ins outs p w c) (hq : q ∈ s.parties) {key : String}
    (hkey : key ∈ q.inputs) : ∃ t ∈ Slot.select ins q.inputs, t.name = key := by
  have hlisted : key ∈ listedInputs s.parties := List.mem_flatMap.mpr ⟨q, hq, hkey⟩
  obtain ⟨t, ht, rfl⟩ := h.inputs.mem_names.mp ((h.fits.mem_inputs key).mp hlisted)
  exact ⟨t, mem_select.mpr ⟨ht, hkey⟩, rfl⟩

/-- A name is undeclared for the slots of a party when the party does not list it. -/
theorem undeclared_iff (h : s.Compiles n ins outs p w c) (hq : q ∈ s.parties) {key : String} :
    (!(Slot.select ins q.inputs).any fun t => t.name == key) = true ↔ key ∉ q.inputs := by
  rw [Bool.not_eq_true', Bool.eq_false_iff, ne_eq, List.any_eq_true, not_iff_not]
  constructor
  · rintro ⟨t, ht, hname⟩
    rw [← eq_of_beq hname]
    exact (mem_select.mp ht).2
  · intro hkey
    obtain ⟨t, ht, rfl⟩ := h.exists_slot hq hkey
    exact ⟨t, ht, beq_self_eq_true _⟩

theorem encodeInput_of_unexpected (h : s.Compiles n ins outs p w c) (hq : q ∈ s.parties)
    {key : String} (hkey : LeastMissing values.keys q.inputs key) :
    c.encodeInput q.name values = .error (.unexpectedInput q.name key) := by
  have hfound := (NameTable.find?_eq_some_iff_leastMissing fun _ => h.undeclared_iff hq).mpr hkey
  rw [h.encodeInput_eq hq, encodeValues, hfound]

/-- Values under the names of inputs only are encoded slot by slot. -/
theorem encodeInput_of_declared (h : s.Compiles n ins outs p w c) (hq : q ∈ s.parties)
    (hkeys : ∀ key ∈ values.keys, key ∈ q.inputs) :
    c.encodeInput q.name values = encodeSlots q.name values (Slot.select ins q.inputs) := by
  have hnone : (values.keys.find? fun k => !(Slot.select ins q.inputs).any fun t => t.name == k) =
      none := by
    rw [List.find?_eq_none]
    exact fun key hkey htest => (h.undeclared_iff hq).mp htest (hkeys key hkey)
  rw [h.encodeInput_eq hq, encodeValues, hnone]

theorem encodeInput_of_given (h : s.Compiles n ins outs p w c) (hq : q ∈ s.parties)
    (hkeys : ∀ key ∈ values.keys, key ∈ q.inputs) {given : String → Int}
    (hgiven : ∀ key ∈ q.inputs, (values.find? key).bind Json.int? = some (given key)) :
    c.encodeInput q.name values = .ok ((Slot.select ins q.inputs).flatMap fun t =>
      Bits.ofInt (given t.name) t.width) := by
  rw [h.encodeInput_of_declared hq hkeys]
  exact encodeSlots_of_given fun t ht => hgiven t.name (mem_select.mp ht).2

/-- Each reason to refuse values is the error of encoding them. -/
theorem encodeInput_of_refuses (h : s.Compiles n ins outs p w c) {e : EncodingError}
    (he : s.RefusesValues ins name values e) : c.encodeInput name values = .error e := by
  cases he with
  | stranger hname => exact h.encodeInput_of_stranger hname
  | unexpected hq hname hkey =>
      obtain rfl := hname
      exact h.encodeInput_of_unexpected hq hkey
  | missing hq hname hkeys hreached hmissing =>
      obtain rfl := hname
      obtain ⟨before, after, hsplit, hbefore⟩ := (Slot.reached_iff h.inputs).mp hreached
      rw [h.encodeInput_of_declared hq hkeys, hsplit]
      exact encodeSlots_append_eq_error hbefore
        (encodeSlots_of_missing (NameTable.find?_eq_none_iff.mpr hmissing))
  | notInteger hq hname hkeys hreached hvalue hfloat =>
      obtain rfl := hname
      obtain ⟨before, after, hsplit, hbefore⟩ := (Slot.reached_iff h.inputs).mp hreached
      rw [h.encodeInput_of_declared hq hkeys, hsplit]
      exact encodeSlots_append_eq_error hbefore (encodeSlots_of_notInteger hvalue hfloat)

/-- Values that a party gives are refused for a reason or are integers under the names of
its inputs. -/
theorem accepts_or_refuses (h : s.Compiles n ins outs p w c) (name : String) (values : Values) :
    s.AcceptsValues name values ∨ ∃ e, s.RefusesValues ins name values e := by
  by_cases hname : ∀ q ∈ s.parties, q.name ≠ name
  · exact .inr ⟨_, .stranger hname⟩
  obtain ⟨q, hq, hname⟩ : ∃ q ∈ s.parties, q.name = name := by
    by_contra hnone
    exact hname fun q hq heq => hnone ⟨q, hq, heq⟩
  by_cases hkeys : ∀ key ∈ values.keys, key ∈ q.inputs
  · by_cases hgives : ∀ t ∈ Slot.select ins q.inputs, values.Gives t.name
    · have hinputs : ∀ key ∈ q.inputs, values.Gives key := by
        intro key hkey
        obtain ⟨t, ht, rfl⟩ := h.exists_slot hq hkey
        exact hgives t ht
      refine .inl ⟨q, hq, hname, fun key => ⟨hkeys key, fun hkey => ?_⟩,
        fun key hkey => hinputs key (hkeys key hkey)⟩
      obtain ⟨v, hv⟩ := hinputs key hkey
      obtain ⟨value, hvalue, _⟩ := Option.bind_eq_some_iff.mp hv
      exact NameTable.mem_keys_iff.mpr ⟨value, hvalue⟩
    · obtain ⟨before, t, after, hsplit, hbefore, hunfit⟩ := exists_first_not hgives
      have hreached : t.Reached ins q.inputs values :=
        (Slot.reached_iff h.inputs).mpr ⟨before, after, hsplit, hbefore⟩
      cases hvalue : values.find? t.name with
      | none =>
          exact .inr ⟨_, .missing hq hname hkeys hreached
            (NameTable.find?_eq_none_iff.mp hvalue)⟩
      | some value =>
          refine .inr ⟨_, .notInteger hq hname hkeys hreached hvalue ?_⟩
          rw [Option.eq_none_iff_forall_ne_some]
          exact fun v hv => hunfit ⟨v, Option.bind_eq_some_iff.mpr ⟨value, hvalue, hv⟩⟩
  · obtain ⟨key, hkey⟩ := NameTable.exists_leastMissing hkeys
    exact .inr ⟨_, .unexpected hq hname hkey⟩

/-- Accepted values are encoded to the bits of their integers, slot by slot, which are as many
as the party has. -/
theorem encodeInput_of_accepts (h : s.Compiles n ins outs p w c)
    (haccepts : s.AcceptsValues name values) :
    ∃ bits, c.encodeInput name values = .ok bits ∧ ∃ i q, s.parties[i]? = some q ∧
      q.name = name ∧ c.partyIndex? name = some i ∧ c.lowered.partyBits[i]? = some bits.length ∧
      ∃ given : String → Int,
        (∀ key ∈ q.inputs, (values.find? key).bind Json.int? = some (given key)) ∧
        bits = (Slot.select ins q.inputs).flatMap fun t => Bits.ofInt (given t.name) t.width := by
  obtain ⟨q, hq, rfl, hkeys, hgives⟩ := haccepts
  obtain ⟨i, hi⟩ := List.mem_iff_getElem?.mp hq
  obtain ⟨given, hgiven⟩ := Values.exists_given fun key hkey => hgives key ((hkeys key).mpr hkey)
  refine ⟨_, h.encodeInput_of_given hq (fun key => (hkeys key).mp) hgiven, i, q, hi, rfl,
    h.partyIndex?_eq hi, ?_, given, hgiven, rfl⟩
  rw [h.partyBits_eq, partySlots, List.getElem?_map, List.getElem?_map, hi]
  exact congrArg some (length_flatMap_digits given _).symm

end Compiles

end Setup

/-- Encoding accepts a value for every input of a party, all of them integers and none of
another name.  The bits are those of the integers, by the first wires of the inputs, on one
wire by their names, and they are as many as the compiled circuit says for the party.  Other
values are refused with the error of the first reason: the name of no party, the least name
that the party does not list, the first input that has no integer. -/
theorem encodeInput_exact {s : Setup} {c : Compiled} {n : Netlist} {ins : List Slot}
    (hcompile : s.compile = .ok c) (hparse : Netlist.parse s.circuit.text = .ok n)
    (hins : Slot.Ranked s.circuit.inputs n.inputWidths ins) (name : String) (values : Values) :
    ((∃ bits, c.encodeInput name values = .ok bits) ↔ s.AcceptsValues name values) ∧
    (∀ bits, c.encodeInput name values = .ok bits → ∃ i q, s.parties[i]? = some q ∧
      q.name = name ∧ c.partyIndex? name = some i ∧ c.lowered.partyBits[i]? = some bits.length ∧
      ∃ given : String → Int,
        (∀ key ∈ q.inputs, (values.find? key).bind Json.int? = some (given key)) ∧
        bits = (Slot.select ins q.inputs).flatMap fun t => Bits.ofInt (given t.name) t.width) ∧
    ∀ e, c.encodeInput name values = .error e ↔ s.RefusesValues ins name values e := by
  obtain ⟨outs, p, w, h⟩ := Setup.exists_compiles hcompile hparse hins
  obtain ⟨hok, herror⟩ := ok_and_error_iff
    (fun haccepts => (h.encodeInput_of_accepts haccepts).imp fun _ => And.left)
    (fun _ => h.encodeInput_of_refuses) (h.accepts_or_refuses name values)
  refine ⟨hok, fun bits hbits => ?_, herror⟩
  obtain ⟨bits', hbits', hencoded⟩ := h.encodeInput_of_accepts (hok.mp ⟨bits, hbits⟩)
  obtain rfl := Except.ok.inj (hbits.symm.trans hbits')
  exact hencoded

/-- Minus three is encoded on the two wires of its input.  Values without this input and with
two other names are refused for the lesser of the names. -/
theorem encodeInput_exact_rewriting : ∃ c, rewritingSetup.compile = .ok c ∧
    c.encodeInput "bob" (.ofList [("x", .int (-3))]) = .ok [false, true] ∧
    c.lowered.partyBits[1]? = some 2 ∧
    c.encodeInput "bob" (.ofList [("z", .null), ("y", .int 1)]) =
      .error (.unexpectedInput "bob" "y") := by
  obtain ⟨p, w, c, h⟩ := rewritingSetup_compiles
  have hcompile : rewritingSetup.compile = .ok c :=
    Setup.compile_eq_ok_iff.mpr ⟨_, _, _, p, w, h⟩
  have hexact := encodeInput_exact hcompile h.parse h.inputs "bob"
  obtain ⟨hok, hbits, _⟩ := hexact (.ofList [("x", .int (-3))])
  obtain ⟨bits, hbits'⟩ := hok.mpr ⟨⟨"bob", ["x"], ["v", "u"]⟩, by decide, rfl,
    fun key => Iff.rfl, fun key hkey => ⟨-3, by rw [List.mem_singleton.mp hkey]; rfl⟩⟩
  obtain ⟨i, q, hi, _, hindex, hlen, given, hgiven, rfl⟩ := hbits bits hbits'
  obtain rfl : 1 = i := by
    rw [Compiled.partyIndex?, h.parties] at hindex
    exact Option.some.inj hindex
  obtain rfl := Option.some.inj hi
  have hx : given "x" = -3 :=
    (Option.some.inj (hgiven "x" (List.mem_singleton_self _))).symm
  have hrow : ((Slot.select rewritingInputs ["x"]).flatMap fun t =>
      Bits.ofInt (given t.name) t.width) = [false, true] := by
    change Bits.ofInt (given "x") 2 ++ [] = _
    rw [hx]
    rfl
  refine ⟨c, hcompile, hbits'.trans (congrArg Except.ok hrow), hlen.trans ?_, ?_⟩
  · rw [hrow]
    rfl
  · refine ((hexact _).2.2 _).mpr (.unexpected (q := ⟨"bob", ["x"], ["v", "u"]⟩) ?_ rfl ?_)
    · exact List.mem_cons_of_mem _ (List.mem_singleton_self _)
    · exact ⟨List.mem_cons_self .., by decide, by decide⟩

end JointCircuit

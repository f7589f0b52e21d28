import JointCircuit.Proofs.Circuit.Written
import JointCircuit.Proofs.Text.Fronts

/-!
# The line of an error

The line that the reader reports is the first that offends.  What stands in front of it
can be completed to a text that is accepted, and no text with the same lines up to it is
accepted, whatever follows (`Netlist.Offends`).  Only when lines are missing there is no
such line, and the last one of the text is reported
(`Netlist.line_of_parse_eq_error`).

The reader goes from the top, so the argument is about the lines that count.  Lines that it
takes are the start of a netlist (`Netlist.Opens`).  An error is about the first line that
it does not take, and it is made without a look at the lines behind
(`Netlist.ofLines_eq_error`).  The start of a netlist is completed with lines of zeros
(`Netlist.Opens.completes`).
-/

namespace JointCircuit

/-- Decide whether a fault is about lines that are missing at the end of a text. -/
def CircuitFault.isMissing : CircuitFault → Bool
  | .missingHeader | .missingWidths _ | .tooFewGates _ _ => true
  | _ => false

namespace Netlist

/-! ## What is found on a line -/

/-- A step that fails reports a fault of the line it reads. -/
def Finds {α : Type} (x : Except CircuitFault α) : Prop :=
  ∀ f, x = .error f → f.isMissing = false

namespace Finds

variable {α β : Type}

theorem ok (a : α) : Finds (.ok a) := by
  intro f h
  cases h

theorem error {f : CircuitFault} (h : f.isMissing = false) : Finds (.error f : Except _ α) := by
  intro f' h'
  cases h'
  exact h

theorem bind {x : Except CircuitFault α} {f : α → Except CircuitFault β} (hx : Finds x)
    (hf : ∀ a, x = .ok a → Finds (f a)) : Finds (x >>= f) := by
  intro e he
  rcases bind_eq_error.mp he with he | ⟨a, ha, he⟩
  · exact hx e he
  · exact hf a ha e he

end Finds

theorem finds_readNumber (word : List Char) : Finds (readNumber word) := by
  unfold readNumber
  split
  · exact .ok _
  · exact .error rfl

theorem finds_readNumbers (words : List (List Char)) : Finds (readNumbers words) := by
  induction words with
  | nil => exact .ok _
  | cons w ws ih => exact (finds_readNumber w).bind fun _ _ => ih.bind fun _ _ => .ok _

theorem finds_readCounts (text : List Char) : Finds (readCounts text) := by
  refine (finds_readNumbers _).bind fun ns _ => ?_
  split
  · exact .ok _
  · exact .error rfl

/-- A line with words holds the number of widths, so it is not said to be missing. -/
theorem finds_readWidths (side : Side) {text : List Char} (h : Text.words text ≠ []) :
    Finds (readWidths side text) := by
  refine (finds_readNumbers _).bind fun ns hns => ?_
  split
  · have hnone := (readNumbers_eq_ok.mp hns).length_eq
    exact absurd (List.eq_nil_of_length_eq_zero hnone) h
  · split
    · exact .ok _
    · exact .error rfl

theorem finds_makeGate (keyword : String) (inputs outputs : Nat) (wires : List Nat) :
    Finds (makeGate keyword inputs outputs wires) := by
  unfold makeGate
  split
  · split
    · exact .ok _
    · exact .error rfl
  · split
    · exact .ok _
    · exact .error rfl
  · exact .error rfl

theorem finds_readGate (wireCount : Nat) (text : List Char) : Finds (readGate wireCount text) := by
  unfold readGate
  split
  · split
    · refine (finds_readNumber _).bind fun _ _ => (finds_readNumber _).bind fun _ _ =>
        (finds_readNumbers _).bind fun _ _ => ?_
      split
      · split
        · exact .error rfl
        · exact finds_makeGate _ _ _ _
      · exact .error rfl
    · exact .error rfl
  · exact .error rfl

/-! ## The line of an error -/

/-- A line holds a gate of a circuit with `wireCount` wires. -/
def HoldsGate (wireCount : Nat) (l : Nat × List Char) : Prop :=
  ∃ g, readGate wireCount l.2 = .ok g

/-- Lines that the reader takes: the first lines of a netlist. -/
inductive Opens : List (Nat × List Char) → Prop where
  | nil : Opens []
  | counts {counts : Nat × List Char} {gates wires : Nat}
      (hcounts : readCounts counts.2 = .ok (gates, wires)) : Opens [counts]
  | inputs {counts inputs : Nat × List Char} {gates wires : Nat} {ins : List Nat}
      (hcounts : readCounts counts.2 = .ok (gates, wires))
      (hinputs : readWidths .input inputs.2 = .ok ins) : Opens [counts, inputs]
  /-- Of the gates there are at most as many as announced. -/
  | gates {counts inputs outputs : Nat × List Char} {rest : List (Nat × List Char)}
      {gates wires : Nat} {ins outs : List Nat}
      (hcounts : readCounts counts.2 = .ok (gates, wires))
      (hinputs : readWidths .input inputs.2 = .ok ins)
      (houtputs : readWidths .output outputs.2 = .ok outs)
      (hlength : rest.length ≤ gates) (hrest : ∀ l ∈ rest, HoldsGate wires l) :
      Opens (counts :: inputs :: outputs :: rest)

/-- The reader takes the lines `before` and refuses `l`, without a look at what follows. -/
structure StopsAt (before : List (Nat × List Char)) (l : Nat × List Char) (e : FormatError) :
    Prop where
  opens : Opens before
  line : e.line = l.1
  found : e.fault.isMissing = false
  refuses : ∀ last after, ofLines last (before ++ l :: after) = .error e

/-- Gates are not read when some are missing, or else for one line: a line too many or a line
that is not a gate, the first such. -/
theorem readGates_eq_error {wireCount declared last : Nat} :
    ∀ {missing : Nat} {ls : List (Nat × List Char)} {e : FormatError},
      readGates wireCount declared last missing ls = .error e →
      (e.line = last ∧ e.fault.isMissing = true) ∨
        ∃ before l after, ls = before ++ l :: after ∧ before.length ≤ missing ∧
          (∀ b ∈ before, HoldsGate wireCount b) ∧ e.line = l.1 ∧ e.fault.isMissing = false ∧
          ∀ last after, readGates wireCount declared last missing (before ++ l :: after) = .error e
  -- the cases are those of the reader, the recursion is on the lines behind a gate
  | 0, [], _, h => by cases h
  | missing + 1, [], _, h => by
      cases h
      exact .inl ⟨rfl, rfl⟩
  | 0, l :: rest, _, h => by
      cases h
      refine .inr ⟨[], l, rest, rfl, Nat.le_refl _, ?_, rfl, rfl, fun _ _ => rfl⟩
      exact fun _ hb => absurd hb List.not_mem_nil
  | missing + 1, l :: rest, e, h => by
      rcases bind_eq_error.mp h with h | ⟨g, hg, h⟩
      · obtain ⟨hline, hfault⟩ := atLine_eq_error.mp h
        refine .inr ⟨[], l, rest, rfl, Nat.zero_le _, ?_, hline, ?_, fun _ _ => ?_⟩
        · exact fun _ hb => absurd hb List.not_mem_nil
        · exact finds_readGate wireCount l.2 _ hfault
        · exact bind_eq_error.mpr (.inl h)
      · rcases bind_eq_error.mp h with h | ⟨_, _, h⟩
        · rcases readGates_eq_error h with hmissing | hstop
          · exact .inl hmissing
          · obtain ⟨before, l', after, rfl, hlength, hbefore, hline, hfound, hrefuses⟩ := hstop
            refine .inr ⟨l :: before, l', after, rfl, Nat.succ_le_succ hlength,
              List.forall_mem_cons.mpr ⟨⟨g, atLine_eq_ok.mp hg⟩, hbefore⟩, hline, hfound, ?_⟩
            intro last' after'
            exact bind_eq_error.mpr (.inr ⟨g, hg, bind_eq_error.mpr (.inl (hrefuses last' after'))⟩)
        · cases h

theorem nextLine_eq_error {last : Nat} {missing : CircuitFault} {ls : List (Nat × List Char)}
    {e : FormatError} : nextLine last missing ls = .error e ↔ ls = [] ∧ e = ⟨last, missing⟩ := by
  cases ls with
  | nil => simp [nextLine, eq_comm]
  | cons l ls => simp [nextLine]

/-- With a header that is read, the gates are what is left to read. -/
theorem ofLines_of_header {last gates wires : Nat} {counts inputs outputs : Nat × List Char}
    {rest : List (Nat × List Char)} {ins outs : List Nat}
    (hcounts : readCounts counts.2 = .ok (gates, wires))
    (hinputs : readWidths .input inputs.2 = .ok ins)
    (houtputs : readWidths .output outputs.2 = .ok outs) :
    ofLines last (counts :: inputs :: outputs :: rest) =
      readGates wires gates last gates rest >>= fun gs =>
        .ok ⟨wires, ins, outs, gs, ⟨counts.1, inputs.1, outputs.1⟩⟩ := by
  simp only [ofLines, nextLine, ok_bind, hcounts, hinputs, houtputs, atLine]

/-- The reader stops at a line for a fault it finds there. -/
theorem StopsAt.of_fault {α : Type} {x : Except CircuitFault α} {before : List (Nat × List Char)}
    {l : Nat × List Char} {e : FormatError} (hopens : Opens before) (hfinds : Finds x)
    (h : atLine l.1 x = .error e)
    (hrefuses : ∀ last after, ofLines last (before ++ l :: after) = .error e) :
    StopsAt before l e := by
  obtain ⟨hline, hfault⟩ := atLine_eq_error.mp h
  exact ⟨hopens, hline, hfinds _ hfault, hrefuses⟩

/-- A netlist is not read when lines are missing, or else for the line at which the reader
stops. -/
theorem ofLines_eq_error {last : Nat} {ls : List (Nat × List Char)} {e : FormatError}
    (hwords : ∀ l ∈ ls, Text.words l.2 ≠ []) (h : ofLines last ls = .error e) :
    (e.line = last ∧ e.fault.isMissing = true) ∨
      ∃ before l after, ls = before ++ l :: after ∧ StopsAt before l e := by
  -- one stage of the reader after the other: it fails there, or it is done with it
  rcases bind_eq_error.mp h with h | ⟨⟨counts, ls₁⟩, hfirst, h⟩
  · obtain ⟨_, rfl⟩ := nextLine_eq_error.mp h
    exact .inl ⟨rfl, rfl⟩
  rw [nextLine_eq_ok] at hfirst
  rcases bind_eq_error.mp h with h | ⟨⟨gates, wires⟩, hcounts, h⟩
  · refine .inr ⟨[], counts, ls₁, hfirst, .of_fault .nil (finds_readCounts _) h fun _ _ => ?_⟩
    simp only [List.nil_append, ofLines, nextLine, ok_bind, h, error_bind]
  rw [atLine_eq_ok] at hcounts
  rcases bind_eq_error.mp h with h | ⟨⟨inputs, ls₂⟩, hsecond, h⟩
  · obtain ⟨_, rfl⟩ := nextLine_eq_error.mp h
    exact .inl ⟨rfl, rfl⟩
  rw [nextLine_eq_ok] at hsecond
  rcases bind_eq_error.mp h with h | ⟨ins, hinputs, h⟩
  · have hfinds := finds_readWidths .input (hwords inputs (by simp [hfirst, hsecond]))
    refine .inr ⟨[counts], inputs, ls₂, hsecond ▸ hfirst,
      .of_fault (.counts hcounts) hfinds h fun _ _ => ?_⟩
    simp only [List.singleton_append, ofLines, nextLine, ok_bind, atLine_eq_ok.mpr hcounts, h,
      error_bind]
  rw [atLine_eq_ok] at hinputs
  rcases bind_eq_error.mp h with h | ⟨⟨outputs, rest⟩, hthird, h⟩
  · obtain ⟨_, rfl⟩ := nextLine_eq_error.mp h
    exact .inl ⟨rfl, rfl⟩
  rw [nextLine_eq_ok] at hthird
  have hls : ls = counts :: inputs :: outputs :: rest := by rw [hfirst, hsecond, hthird]
  rcases bind_eq_error.mp h with h | ⟨outs, houtputs, h⟩
  · have hfinds := finds_readWidths .output (hwords outputs (by simp [hls]))
    refine .inr ⟨[counts, inputs], outputs, rest, hls,
      .of_fault (.inputs hcounts hinputs) hfinds h fun _ _ => ?_⟩
    simp only [List.cons_append, List.nil_append, ofLines, nextLine, ok_bind,
      atLine_eq_ok.mpr hcounts, atLine_eq_ok.mpr hinputs, h, error_bind]
  rw [atLine_eq_ok] at houtputs
  rcases bind_eq_error.mp h with h | ⟨_, _, h⟩
  · refine (readGates_eq_error h).imp_right ?_
    rintro ⟨before, l, after, rfl, hlength, hbefore, hline, hfound, hrefuses⟩
    refine ⟨counts :: inputs :: outputs :: before, l, after, hls,
      .gates hcounts hinputs houtputs hlength hbefore, hline, hfound, fun last' after' => ?_⟩
    rw [List.cons_append, List.cons_append, List.cons_append,
      ofLines_of_header hcounts hinputs houtputs, hrefuses, error_bind]
  · cases h

/-! ## Completing the start of a netlist -/

/-- The counts of a circuit without gates and wires. -/
def zeroCounts : List Char := "0 0".toList

/-- The widths of a side without values. -/
def zeroWidths : List Char := "0".toList

/-- A gate for which one wire is enough. -/
def zeroGate : List Char := "1 1 0 0 NOT".toList

/-- The lines with which the start of a netlist goes on. -/
def zeroLines : List (List Char) := [zeroCounts, zeroWidths, zeroGate]

theorem row_of_mem_zeroLines : ∀ row ∈ zeroLines, Text.Row row := by decide

theorem trim_of_mem_zeroLines : ∀ row ∈ zeroLines, Text.trim row = row := by decide

theorem not_blank_of_mem_zeroLines : ∀ row ∈ zeroLines, ¬ Text.Blank row := by
  simp only [← Text.trim_eq_nil_iff]
  decide

theorem readCounts_zeroCounts : readCounts zeroCounts = .ok (0, 0) := by rfl

theorem readWidths_zeroWidths (side : Side) : readWidths side zeroWidths = .ok [] := by rfl

theorem readGate_zeroGate {wireCount : Nat} (h : 0 < wireCount) :
    readGate wireCount zeroGate = .ok (.unary .not 0 0) := by
  have hnumbers : List.Forall₂ (fun w n => Text.number? w = some n)
      [['1'], ['1'], ['0'], ['0']] [1, 1, 0, 0] := by
    simp only [List.forall₂_cons, List.Forall₂.nil, and_true]
    decide
  simp only [Text.number?_eq_some_iff] at hnumbers
  exact readGate_eq_ok.mpr ⟨_, rfl, hnumbers, by simp [Gate.operands, Gate.output, h]⟩

/-- Gate lines are read when there are as many as announced. -/
theorem exists_readGates (declared last : Nat) {wireCount missing : Nat}
    {ls : List (Nat × List Char)} (hlength : ls.length = missing)
    (h : ∀ l ∈ ls, HoldsGate wireCount l) :
    ∃ gs, readGates wireCount declared last missing ls = .ok gs := by
  subst hlength
  induction ls with
  | nil => exact ⟨[], rfl⟩
  | cons l ls ih =>
      obtain ⟨⟨g, hg⟩, hls⟩ := List.forall_mem_cons.mp h
      obtain ⟨gs, hgs⟩ := ih hls
      exact ⟨⟨l.1, g⟩ :: gs, bind_eq_ok.mpr ⟨g, atLine_eq_ok.mpr hg, bind_eq_ok.mpr ⟨gs, hgs, rfl⟩⟩⟩

/-- Behind a header and some of its gates, lines of zeros stand for the gates still to come. -/
theorem completes_gates {last gates wires : Nat} {counts inputs outputs : Nat × List Char}
    (rest : List (Nat × List Char)) {more : List (Nat × List Char)} {ins outs : List Nat}
    (hcounts : readCounts counts.2 = .ok (gates, wires))
    (hinputs : readWidths .input inputs.2 = .ok ins)
    (houtputs : readWidths .output outputs.2 = .ok outs) (hlength : rest.length ≤ gates)
    (hrest : ∀ l ∈ rest, HoldsGate wires l) (hwire : 0 < wires ∨ gates = 0)
    (hmore : more.map Prod.snd = List.replicate (gates - rest.length) zeroGate) :
    ∃ n, ofLines last (counts :: inputs :: outputs :: (rest ++ more)) = .ok n := by
  -- a gate to come is announced, so there is a wire 0 for it
  have hzero : ∀ l ∈ more, HoldsGate wires l := by
    intro l hl
    have hmem : l.2 ∈ List.replicate (gates - rest.length) zeroGate :=
      hmore ▸ List.mem_map_of_mem hl
    obtain ⟨hmissing, hline⟩ := List.mem_replicate.mp hmem
    exact ⟨_, hline ▸ readGate_zeroGate (hwire.resolve_right (by omega))⟩
  have hcount : (rest ++ more).length = gates := by
    have hmissing := congrArg List.length hmore
    rw [List.length_map, List.length_replicate] at hmissing
    rw [List.length_append]
    omega
  obtain ⟨gs, hgs⟩ := exists_readGates gates last hcount (List.forall_mem_append.mpr ⟨hrest, hzero⟩)
  exact ⟨_, by rw [ofLines_of_header hcounts hinputs houtputs, hgs, ok_bind]⟩

/-- Lines that the reader takes are completed to a netlist by further lines, unless they
announce gates and no wire. -/
theorem Opens.completes {ls : List (Nat × List Char)} (h : Opens ls)
    (hwire : ∀ counts rest gates wires, ls = counts :: rest →
      readCounts counts.2 = .ok (gates, wires) → 0 < wires ∨ gates = 0) :
    ∃ rows, (∀ row ∈ rows, row ∈ zeroLines) ∧
      ∀ last more, more.map Prod.snd = rows → ∃ n, ofLines last (ls ++ more) = .ok n := by
  cases h with
  | nil =>
      refine ⟨[zeroCounts, zeroWidths, zeroWidths], by simp [zeroLines], fun last more hmore => ?_⟩
      obtain ⟨counts, _, rfl, hcounts, hmore⟩ := List.map_eq_cons_iff.mp hmore
      obtain ⟨inputs, _, rfl, hinputs, hmore⟩ := List.map_eq_cons_iff.mp hmore
      obtain ⟨outputs, more, rfl, houtputs, hmore⟩ := List.map_eq_cons_iff.mp hmore
      exact completes_gates [] (hcounts ▸ readCounts_zeroCounts) (hinputs ▸ readWidths_zeroWidths _)
        (houtputs ▸ readWidths_zeroWidths _) (Nat.le_refl _) (by simp) (.inr rfl) hmore
  | @counts counts gates wires hcounts =>
      refine ⟨[zeroWidths, zeroWidths] ++ List.replicate gates zeroGate, by simp [zeroLines],
        fun last more hmore => ?_⟩
      obtain ⟨inputs, _, rfl, hinputs, hmore⟩ := List.map_eq_cons_iff.mp hmore
      obtain ⟨outputs, more, rfl, houtputs, hmore⟩ := List.map_eq_cons_iff.mp hmore
      exact completes_gates [] hcounts (hinputs ▸ readWidths_zeroWidths _)
        (houtputs ▸ readWidths_zeroWidths _) (Nat.zero_le _) (by simp)
        (hwire _ _ _ _ rfl hcounts) hmore
  | @inputs counts inputs gates wires ins hcounts hinputs =>
      refine ⟨[zeroWidths] ++ List.replicate gates zeroGate, by simp [zeroLines],
        fun last more hmore => ?_⟩
      obtain ⟨outputs, more, rfl, houtputs, hmore⟩ := List.map_eq_cons_iff.mp hmore
      exact completes_gates [] hcounts hinputs (houtputs ▸ readWidths_zeroWidths _)
        (Nat.zero_le _) (by simp) (hwire _ _ _ _ rfl hcounts) hmore
  | @gates counts inputs outputs rest gates wires ins outs hcounts hinputs houtputs hlength hrest =>
      refine ⟨List.replicate (gates - rest.length) zeroGate, by simp [zeroLines],
        fun last more hmore => ?_⟩
      exact completes_gates rest hcounts hinputs houtputs hlength hrest
        (hwire _ _ _ _ rfl hcounts) hmore

/-! ## The text -/

/-- As far as the lines say, there is a wire or there is no gate. -/
def HasWire (ls : List (List Char)) : Prop :=
  ∀ first rest gates wires, Text.countedLines ls = first :: rest →
    Text.HoldsNumbers first.1 [gates, wires] → 0 < wires ∨ gates = 0

/-- The line of an error is the first line of the text that offends. -/
structure Offends (text : String) (ls : List (List Char)) (e : FormatError) : Prop where
  stands : 0 < e.line ∧ ∃ line, ls[e.line - 1]? = some line ∧ ¬ Text.Blank line
  /-- With the same lines up to it, a text is refused for it. -/
  refused : ∀ (text' : String) (ls' : List (List Char)), Text.Broken text'.toList ls' →
    ls'.take e.line = ls.take e.line → parse text' = .error e
  /-- The lines in front of it can go on to a text that is accepted. -/
  opens : HasWire (ls.take (e.line - 1)) →
    ∃ front back more rows n, text.toList = front ++ back ∧
      Text.Broken front (ls.take (e.line - 1)) ∧
      Text.Broken (front ++ more) (ls.take (e.line - 1) ++ rows) ∧
      parse (String.ofList (front ++ more)) = .ok n

/-- The lines that count, as the reader sees them. -/
def readable (ls : List (List Char)) : List (Nat × List Char) :=
  (Text.countedLines ls).map fun l => (l.2, Text.trim l.1)

theorem words_of_mem_readable {ls : List (List Char)} {l : Nat × List Char}
    (h : l ∈ readable ls) : Text.words l.2 ≠ [] := by
  obtain ⟨l, hl, rfl⟩ := List.mem_map.mp h
  have hholds := (Text.blank_or_holds l.1).resolve_left (Text.not_blank_of_mem_countedLines hl)
  rw [Text.words_trim]
  exact hholds.ne_nil

/-- An error that is not about missing lines is about a line of the text, at which the reader
stops. -/
theorem exists_stopsAt {last : Nat} {ls : List (List Char)} {e : FormatError}
    (h : ofLines last (readable ls) = .error e) (hfound : e.fault.isMissing = false) :
    ∃ front line rest, ls = front ++ line :: rest ∧ e.line = 1 + front.length ∧
      ¬ Text.Blank line ∧ StopsAt (readable front) (e.line, Text.trim line) e := by
  rcases ofLines_eq_error (fun _ => words_of_mem_readable) h with ⟨_, hmissing⟩ | hstops
  · rw [hfound] at hmissing
    cases hmissing
  · obtain ⟨_, _, _, hsplit, hstop⟩ := hstops
    obtain ⟨before, _, hcounted, rfl, htail⟩ := List.map_eq_append_iff.mp hsplit
    obtain ⟨l, after, rfl, rfl, -⟩ := List.map_eq_cons_iff.mp htail
    obtain ⟨front, rest, rfl, hnumber, rfl⟩ := Text.countedLines_eq_append_cons hcounted
    have hsolid := Text.not_blank_of_mem_countedLines (l := l) (by rw [hcounted]; simp)
    exact ⟨front, l.1, rest, rfl, hstop.line.trans hnumber, hsolid, hstop.line ▸ hstop⟩

/-- Whatever follows the line at which the reader stops, it is refused. -/
theorem StopsAt.ofLines_readable {front : List (List Char)} {line : List Char} {e : FormatError}
    (h : StopsAt (readable front) (e.line, Text.trim line) e) (hline : e.line = 1 + front.length)
    (hsolid : ¬ Text.Blank line) (last : Nat) (rest : List (List Char)) :
    ofLines last (readable (front ++ line :: rest)) = .error e := by
  obtain ⟨after, hafter⟩ := Text.countedLines_append_cons front hsolid rest
  rw [readable, hafter, List.map_append, List.map_cons, ← hline]
  exact h.refuses last _

/-- The lines in front of the line at which the reader stops can be completed by rows. -/
theorem Opens.exists_rows {front : List (List Char)} (h : Opens (readable front))
    (hwire : HasWire front) :
    ∃ rows, (∀ row ∈ rows, Text.Row row) ∧
      ∀ last, ∃ n, ofLines last (readable (front ++ rows)) = .ok n := by
  obtain ⟨rows, hzeros, hrows⟩ := h.completes fun counts rest gates wires hfront hcounts => by
    obtain ⟨first, _, hcounted, rfl, -⟩ := List.map_eq_cons_iff.mp hfront
    have hsolid := Text.not_blank_of_mem_countedLines (l := first) (by rw [hcounted]; simp)
    exact hwire first _ gates wires hcounted
      ((readNumbers_trim_eq_ok hsolid).mp (readCounts_eq_ok.mp hcounts))
  have hsolid : ∀ row ∈ rows, ¬ Text.Blank row := fun row hmem =>
    not_blank_of_mem_zeroLines row (hzeros row hmem)
  refine ⟨rows, fun row hmem => row_of_mem_zeroLines row (hzeros row hmem), fun last => ?_⟩
  rw [readable, Text.countedLines_append_solid hsolid, List.map_append]
  refine hrows last _ ?_
  have htrim : ∀ row ∈ rows, Text.trim row = id row := fun row hmem =>
    trim_of_mem_zeroLines row (hzeros row hmem)
  calc ((rows.zipIdx (1 + front.length)).map fun l => (l.2, Text.trim l.1)).map Prod.snd
      = ((rows.zipIdx (1 + front.length)).map Prod.fst).map Text.trim := by
        rw [List.map_map, List.map_map]
        rfl
    _ = rows := by rw [List.zipIdx_map_fst, List.map_congr_left htrim, List.map_id]

/-- Reading a text with known lines. -/
theorem parse_eq {text : String} {ls : List (List Char)} (h : Text.Broken text.toList ls) :
    parse text = ofLines (max ls.length 1) (readable ls) := by
  have hlength := congrArg List.length h.map_trim_eq
  rw [List.length_map, List.length_map] at hlength
  rw [parse, Text.lastLine, hlength, h.contentLines_eq, readable]

theorem Offends.of_stopsAt {text : String} {front rest : List (List Char)} {line : List Char}
    {e : FormatError} (hls : Text.Broken text.toList (front ++ line :: rest))
    (hline : e.line = 1 + front.length) (hsolid : ¬ Text.Blank line)
    (hstop : StopsAt (readable front) (e.line, Text.trim line) e) :
    Offends text (front ++ line :: rest) e := by
  have hfront : (front ++ line :: rest).take (e.line - 1) = front := List.take_left' (by omega)
  have hupto : (front ++ line :: rest).take e.line = front ++ [line] := by
    rw [hline, Nat.add_comm, List.take_length_add_append]
    rfl
  refine ⟨⟨by omega, line, by simp [hline], hsolid⟩, ?_, ?_⟩
  · -- another text goes on behind the line in its own way
    intro text' ls' hls' hsame
    rw [hupto] at hsame
    rw [parse_eq hls', ← List.take_append_drop e.line ls', hsame, List.append_assoc]
    exact hstop.ofLines_readable hline hsolid _ _
  · -- the text goes on with rows of zeros in the stead of the line
    intro hwire
    rw [hfront] at hwire ⊢
    obtain ⟨rows, hrow, hrows⟩ := hstop.opens.exists_rows hwire
    obtain ⟨head, back, htext, hhead⟩ := hls.front (k := front.length) (by simp)
    rw [List.take_left] at hhead
    have hmore := hhead _ _ (Text.broken_ofRows hrow)
    obtain ⟨n, hn⟩ := hrows (max (front ++ rows).length 1)
    refine ⟨head, back, Text.ofRows rows, rows, n, htext, ?_, hmore, ?_⟩
    · simpa using hhead [] [] .nil
    · rw [← String.toList_ofList (l := head ++ Text.ofRows rows)] at hmore
      rw [parse_eq hmore, hn]

/-- The reported line is the last of the text when lines are missing there, and it is the
first that offends otherwise. -/
theorem line_of_parse_eq_error {text : String} {ls : List (List Char)} {e : FormatError}
    (h : parse text = .error e) (hls : Text.Broken text.toList ls) :
    (e.fault.isMissing = true → e.line = max ls.length 1) ∧
      (e.fault.isMissing = false → Offends text ls e) := by
  rw [parse_eq hls] at h
  constructor
  · intro hmissing
    rcases ofLines_eq_error (fun _ => words_of_mem_readable) h with ⟨hline, _⟩ | hstops
    · exact hline
    · obtain ⟨_, _, _, _, hstop⟩ := hstops
      rw [hstop.found] at hmissing
      cases hmissing
  · intro hfound
    obtain ⟨front, line, rest, rfl, hline, hsolid, hstop⟩ := exists_stopsAt h hfound
    exact .of_stopsAt hls hline hsolid hstop

/-- A circuit with a blank line, of which the second gate writes a wire that is not there. -/
def beyondLines : List (List Char) :=
  ["2 4".toList, [], "2 1 1".toList, "1 1".toList, "2 1 0 1 2 XOR".toList, "2 1 0 1 4 AND".toList]

def beyondText : String := String.ofList (Text.ofRows beyondLines)

theorem line_of_parse_eq_error_beyond :
    parse beyondText = .error ⟨6, .wireOutOfRange 4 4⟩ ∧
      Text.Broken beyondText.toList beyondLines ∧ HasWire (beyondLines.take 5) ∧
      Offends beyondText beyondLines ⟨6, .wireOutOfRange 4 4⟩ := by
  have hrows : ∀ row ∈ beyondLines, Text.Row row := by decide
  have hbroken : Text.Broken beyondText.toList beyondLines := by
    rw [beyondText, String.toList_ofList]
    exact Text.broken_ofRows hrows
  have hparse : parse beyondText = .error ⟨6, .wireOutOfRange 4 4⟩ := by
    rw [parse, beyondText, String.toList_ofList]
    decide
  refine ⟨hparse, hbroken, ?_, (line_of_parse_eq_error hparse hbroken).2 rfl⟩
  intro first rest gates wires hcounted hholds
  have hfront : Text.Broken (Text.ofRows (beyondLines.take 5)) (beyondLines.take 5) :=
    Text.broken_ofRows fun row hmem => hrows row (List.mem_of_mem_take hmem)
  have hhead : (Text.contentLines (Text.ofRows (beyondLines.take 5))).head? =
      some (1, "2 4".toList) := by decide
  rw [hfront.contentLines_eq, hcounted, List.map_cons, List.head?_cons, Option.some.injEq,
    Prod.mk.injEq] at hhead
  have hsolid := Text.not_blank_of_mem_countedLines (l := first) (by rw [hcounted]; simp)
  have hread := (readNumbers_trim_eq_ok hsolid).mpr hholds
  rw [hhead.2, show readNumbers (Text.words "2 4".toList) = .ok [2, 4] from rfl] at hread
  cases hread
  exact .inl (by decide)

end Netlist

end JointCircuit

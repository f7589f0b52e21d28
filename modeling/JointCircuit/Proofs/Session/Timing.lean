import JointCircuit.Proofs.Session.Delivery
import JointCircuit.Proofs.Session.Receipts

/-!
# Timing does not matter

Two histories of a session, made of runs and accepted messages, bring the same bytes of
every peer under every tag.  They may cut them into messages at other places, mix the
peers and tags in another way, and let the worker run at other times.  After a last run
both sessions have come to the same (`Session.timing_independent`), as long as the engine
waits for one receive at a time and all peers send the right fingerprint.

The proof delays all runs.  By induction on a history it is as good as one run after
everything was delivered (`Session.Standing.steps_alike`), since a run before a message can
be left out, and this one run sees no history any more.
-/

namespace JointCircuit

namespace Session

/-! ## Histories -/

/-- Nothing happens to a session but runs and messages that are accepted. -/
def Undisturbed : Session → List Event → Prop
  | _, [] => True
  | s, .run :: es => Undisturbed s.run es
  | s, .message name bytes :: es =>
      (s.step (.message name bytes)).1 = .done ∧ Undisturbed (s.step (.message name bytes)).2 es
  | _, _ :: _ => False

/-- A message that is accepted is put into the mailbox. -/
theorem delivered_of_accepted {s : Session} {name : String} {bytes : Bytes}
    (h : (s.step (.message name bytes)).1 = .done) :
    Delivered (fun peer tag => s.arrival peer tag (.message name bytes)) s
      (s.step (.message name bytes)).2 := by
  rw [Session.step] at h ⊢
  split at h
  · cases h
  · rename_i hdropped
    have hinbox := s.handleMessage_inbox name bytes
    rw [if_neg hdropped]
    rw [handleMessage] at h hinbox ⊢
    cases haccept : s.accept name bytes with
    | error e =>
        rw [haccept] at h
        cases h
    | ok t =>
        rw [haccept] at hinbox
        obtain ⟨_, _, _, _, _, _, _, rfl⟩ := accept_eq_ok.mp haccept
        refine ⟨⟨_, rfl⟩, fun peer tag => ?_⟩
        have hpushed := hinbox peer tag (Bool.not_eq_true _ ▸ hdropped)
        rw [inbox, inbox, List.append_assoc] at hpushed
        exact List.append_cancel_left hpushed

theorem arrival_congr {s t : Session} (hcompiled : t.compiled = s.compiled)
    (hparty : t.party = s.party) (hdropped : t.dropped = s.dropped) (peer : Nat) (tag : Tag) :
    t.arrival peer tag = s.arrival peer tag := by
  have hnamed : t.peerNamed? = s.peerNamed? := by
    funext name
    rw [peerNamed?, hcompiled, hparty, peerNamed?]
  funext e
  unfold arrival
  rw [hnamed, hdropped]

/-- What an undisturbed history brings depends on its events alone. -/
theorem Undisturbed.received_eq {es : List Event} : ∀ {s : Session}, s.Undisturbed es →
    s.Standing → ∀ peer tag, s.received es peer tag = es.flatMap (s.arrival peer tag) := by
  induction es with
  | nil => exact fun _ _ _ _ => rfl
  | cons e es ih =>
      intro s h hs peer tag
      rw [received, List.flatMap_cons]
      congr 1
      cases e with
      | run =>
          have hkeeps := hs.run_keeps
          rw [← arrival_congr hkeeps.compiled hkeeps.party hkeeps.dropped]
          exact ih h hs.run peer tag
      | message name bytes =>
          obtain ⟨_, heq⟩ := (delivered_of_accepted h.1).frame
          rw [ih h.2 (hs.step _), arrival_congr] <;> rw [heq]
      | drop => exact absurd h id
      | keptSend p channel bytes => exact absurd h id
      | keptReceive request => exact absurd h id

/-- What an event brings can be put into any mailbox. -/
theorem exists_arrival (s : Session) (e : Event) (m : Mailbox) : ∃ m' : Mailbox,
    ∀ peer tag, m'.queue peer tag = m.queue peer tag ++ s.arrival peer tag e := by
  cases e with
  | message name bytes =>
      cases bytes with
      | nil => exact ⟨m, fun _ _ => (List.append_nil _).symm⟩
      | cons b payload =>
          by_cases h : ∃ p u, s.dropped = false ∧ s.peerNamed? name = some p ∧
              Tag.ofByte? b = some u
          · obtain ⟨p, u, hdropped, hpeer, htag⟩ := h
            refine ⟨m.push p u payload, fun peer tag => ?_⟩
            simp only [Mailbox.queue_push, arrival, hdropped, hpeer, htag, true_and,
              Option.some.injEq, eq_comm (a := p), eq_comm (a := u)]
            split <;> simp
          · refine ⟨m, fun peer tag => ?_⟩
            rw [arrival, if_neg fun hthere => h ⟨peer, tag, hthere⟩, List.append_nil]
  | run => exact ⟨m, fun _ _ => (List.append_nil _).symm⟩
  | drop => exact ⟨m, fun _ _ => (List.append_nil _).symm⟩
  | keptSend peer channel bytes => exact ⟨m, fun _ _ => (List.append_nil _).symm⟩
  | keptReceive request => exact ⟨m, fun _ _ => (List.append_nil _).symm⟩

/-- What a history brings can be put into any mailbox. -/
theorem exists_mailbox : ∀ (es : List Event) (s : Session) (m : Mailbox), ∃ m' : Mailbox,
    ∀ peer tag, m'.queue peer tag = m.queue peer tag ++ s.received es peer tag
  | [], _, m => ⟨m, fun _ _ => (List.append_nil _).symm⟩
  | e :: es, s, m => by
      obtain ⟨m₁, harrival⟩ := s.exists_arrival e m
      obtain ⟨m₂, hreceived⟩ := exists_mailbox es (s.step e).2 m₁
      refine ⟨m₂, fun peer tag => ?_⟩
      rw [hreceived, harrival, received, List.append_assoc]

namespace Delivered

variable {first more : Nat → Tag → Bytes} {s t u : Session}

/-- What was delivered first leaves the rest to be delivered. -/
theorem rest (h : Delivered first s t)
    (h' : Delivered (fun peer tag => first peer tag ++ more peer tag) s u) :
    Delivered more t u := by
  obtain ⟨_, heq⟩ := h.frame
  obtain ⟨mailbox, rfl⟩ := h'.frame
  refine ⟨⟨mailbox, by rw [heq]⟩, fun peer tag => ?_⟩
  rw [h'.queue, h.queue, List.append_assoc]

theorem willAgree (h : Delivered first s t)
    (hagree : s.WillAgree fun peer tag => first peer tag ++ more peer tag) :
    t.WillAgree more := by
  have hinbox := h.inbox_eq
  obtain ⟨_, rfl⟩ := h.frame
  intro peer hpeer
  rw [hinbox, List.append_assoc]
  exact hagree peer hpeer

theorem oneByOne (h : Delivered first s t) (hone : s.OneByOne) : t.OneByOne := by
  obtain ⟨_, rfl⟩ := h.frame
  exact hone

end Delivered

/-- A history is as good as one run after everything was delivered. -/
theorem Standing.steps_alike {es : List Event} : ∀ {s t : Session}, s.Standing → s.OneByOne →
    s.Undisturbed es → s.WillAgree (s.received es) → Delivered (s.received es) s t →
    (s.steps es).run.Alike t.run := by
  induction es with
  | nil =>
      intro s t hs hone _ hagree ht
      have halike := hs.run_delivered hone hagree ht (.refl s.run)
      rwa [hs.run_run] at halike
  | cons e es ih =>
      intro s t hs hone hcalm hagree ht
      cases e with
      | run =>
          obtain ⟨mailbox, hmailbox⟩ := exists_mailbox es s.run s.run.mailbox
          have hu : Delivered (s.run.received es) s.run { s.run with mailbox } :=
            ⟨⟨mailbox, rfl⟩, hmailbox⟩
          exact (ih hs.run (hs.oneByOne hone) hcalm (hagree.congr hs.run_keeps) hu).trans
            (hs.run_delivered hone hagree ht hu)
      | message name bytes =>
          obtain ⟨hdone, hcalm⟩ := hcalm
          have hfirst := delivered_of_accepted hdone
          exact ih (hs.step _) (hfirst.oneByOne hone) hcalm (hfirst.willAgree hagree)
            (hfirst.rest ht)
      | drop => exact absurd hcalm id
      | keptSend peer channel bytes => exact absurd hcalm id
      | keptReceive request => exact absurd hcalm id

/-! ## What is seen of a history -/

theorem sentAmong_shown (ds : List Deed) : sentAmong (shownAmong ds) = sentAmong ds := by
  rw [sentAmong, sentAmong, shownAmong, List.filterMap_filter]
  refine List.filterMap_congr fun d _ => ?_
  cases d with
  | took peer tag bytes => cases tag <;> rfl
  | _ => rfl

/-- Of the takes, those of the handshake are not shown. -/
theorem takesAmong_shown (ds : List Deed) :
    takesAmong (shownAmong ds) = (takesAmong ds).filter fun x => x.2.1 ≠ .setup := by
  induction ds with
  | nil => rfl
  | cons d ds ih =>
      rw [← List.singleton_append, shownAmong_append, takesAmong_append, takesAmong_append,
        List.filter_append, ih]
      cases d with
      | took peer tag bytes => cases tag <;> rfl
      | _ => rfl

/-- The receipt of a take. -/
def receiptOf : Nat × Tag × Bytes → Receipt
  | (peer, tag, bytes) => ⟨peer, tag, bytes.length, bytes⟩

theorem Completes.receipts_eq {s s' : Session} {rs : List Receipt} (h : s.Completes s' rs)
    (hnone : s.deeds = #[]) : rs = (takesAmong s'.deeds.toList).map receiptOf := by
  have hself : ∀ r ∈ rs, receiptOf (r.peer, r.tag, r.bytes) = r := fun r hr => by
    rw [receiptOf, h.counts r hr]
  rw [h.takes, hnone, takesAmong, List.filterMap_nil, List.nil_append, List.map_map]
  exact (List.map_id' rs).symm.trans (List.map_congr_left fun r hr => (hself r hr).symm)

/-- What an engine is handed is shown. -/
theorem Completes.handed_eq {s s' : Session} {rs : List Receipt} (h : s.Completes s' rs)
    (hnone : s.deeds = #[]) : rs.filter (fun r => r.tag ≠ .setup) =
      (takesAmong (shownAmong s'.deeds.toList)).map receiptOf := by
  rw [takesAmong_shown, h.receipts_eq hnone, List.filter_map]
  rfl

theorem steps_concat (s : Session) (es : List Event) (e : Event) :
    s.steps (es ++ [e]) = ((s.steps es).step e).2 := by
  induction es generalizing s with
  | nil => rfl
  | cons e' es ih => exact ih _

/-- Sessions that are alike have come to the same. -/
theorem Alike.stage_eq {s t : Session} (h : s.Alike t) : s.stage = t.stage := by
  obtain ⟨_, _, _, rfl⟩ := h.frame
  rfl

theorem Alike.result_eq {s t : Session} (h : s.Alike t) : s.result = t.result := by
  obtain ⟨_, _, _, rfl⟩ := h.frame
  rfl

section Histories

variable {c : Compiled} {name : String} {values : Values} {program : EngineProgram}
  {faulty : Nat → Option String} {s : Session} {es es₁ es₂ : List Event}

/-- Two histories that bring the same lead to sessions that are alike. -/
theorem steps_alike_steps (h : start c name values program faulty = .ok s)
    (hengine : ∀ context, (program.acts context).Sequential)
    (h₁ : s.Undisturbed es₁) (h₂ : s.Undisturbed es₂)
    (hsame : ∀ peer tag, s.received es₁ peer tag = s.received es₂ peer tag)
    (hagree : ∀ peer ∈ s.peers, c.fingerprint.bytes <+: s.received es₁ peer .setup) :
    (s.steps es₁).run.Alike (s.steps es₂).run := by
  have hstanding := start_standing h
  have hsame' : s.received es₂ = s.received es₁ :=
    funext fun peer => funext fun tag => (hsame peer tag).symm
  obtain ⟨mailbox, hmailbox⟩ := exists_mailbox es₁ s s.mailbox
  have hall : Delivered (s.received es₁) s { s with mailbox } := ⟨⟨mailbox, rfl⟩, hmailbox⟩
  obtain ⟨_, _, _, _, rfl⟩ := start_eq_ok h
  have halike₁ := hstanding.steps_alike (hengine _) h₁ hagree hall
  have halike₂ := hstanding.steps_alike (hengine _) h₂ (hsame' ▸ hagree) (hsame' ▸ hall)
  exact halike₁.trans halike₂.symm

/-- What the engine of a session was handed is shown in its deeds. -/
theorem handed_eq (h : start c name values program faulty = .ok s) (es : List Event) :
    (s.receipts es).filter (fun r => r.tag ≠ .setup) =
      (takesAmong (shownAmong (s.steps es).deeds.toList)).map receiptOf := by
  have hcompletes := s.steps_completes es
  obtain ⟨_, _, _, _, rfl⟩ := start_eq_ok h
  exact hcompletes.handed_eq rfl

/-- Timing does not matter.  Two histories of runs and accepted messages that bring the same
bytes of every peer under every tag, each with a run at its end, leave a session at the
same stage, with the same result and the same bytes in every queue, after it sent the
same messages in the same order and handed the same bytes to its engine in the same
order.  The engine waits for one receive at a time, and every peer sends the right
fingerprint.  Attempts to send may break down or not. -/
theorem timing_independent (h : start c name values program faulty = .ok s)
    (hengine : ∀ context, (program.acts context).Sequential)
    (h₁ : s.Undisturbed es₁) (h₂ : s.Undisturbed es₂)
    (hsame : ∀ peer tag, s.received es₁ peer tag = s.received es₂ peer tag)
    (hagree : ∀ peer ∈ s.peers, c.fingerprint.bytes <+: s.received es₁ peer .setup) :
    (s.steps (es₁ ++ [.run])).stage = (s.steps (es₂ ++ [.run])).stage ∧
    (s.steps (es₁ ++ [.run])).result = (s.steps (es₂ ++ [.run])).result ∧
    sentAmong (s.steps (es₁ ++ [.run])).deeds.toList =
      sentAmong (s.steps (es₂ ++ [.run])).deeds.toList ∧
    (s.receipts (es₁ ++ [.run])).filter (fun r => r.tag ≠ .setup) =
      (s.receipts (es₂ ++ [.run])).filter (fun r => r.tag ≠ .setup) ∧
    ∀ peer tag, (s.steps (es₁ ++ [.run])).mailbox.queue peer tag =
      (s.steps (es₂ ++ [.run])).mailbox.queue peer tag := by
  have halike : (s.steps (es₁ ++ [.run])).Alike (s.steps (es₂ ++ [.run])) := by
    rw [steps_concat, steps_concat]
    exact steps_alike_steps h hengine h₁ h₂ hsame hagree
  refine ⟨halike.stage_eq, halike.result_eq, ?_, ?_, fun peer tag => ?_⟩
  · rw [← sentAmong_shown, ← halike.deeds, sentAmong_shown]
  · rw [handed_eq h, handed_eq h, halike.deeds]
  · rw [halike.queue, List.append_nil]

end Histories

end Session

/-! ## The plaintext engine -/

namespace Plaintext

theorem sendAll_sequential (channel : Channel) {next : Engine} (h : next.Sequential) :
    ∀ messages : List (Nat × Bytes), (sendAll channel messages next).Sequential
  | [] => h
  | (peer, bytes) :: rest => by
      refine .send fun refusal => ?_
      cases refusal with
      | none => exact sendAll_sequential channel h rest
      | some e => exact .finish _

theorem receiveOne_sequential (peer : Nat) (channel : Channel) (count : Nat)
    {next : Bytes → Engine} (h : ∀ bytes, (next bytes).Sequential) :
    (receiveOne peer channel count next).Sequential := by
  refine .receive (Nat.le_refl 1) fun answers => ?_
  split
  · exact h _
  · exact .finish _
  · exact .finish _

theorem gather_sequential (own : Nat) (inputs : List Bool) {next : List Bool → Engine}
    (h : ∀ bits, (next bits).Sequential) :
    ∀ (party : Nat) (widths : List Nat) (before : List Bool),
      (gather own inputs party widths before next).Sequential
  | _, [], before => h before
  | party, width :: widths, before => by
      rw [gather]
      split
      · exact gather_sequential own inputs h _ widths _
      · exact receiveOne_sequential _ _ _ fun bytes => gather_sequential own inputs h _ widths _

theorem compare_sequential (outputs : List Bool) :
    ∀ peers : List Nat, (compare outputs peers).Sequential
  | [] => .finish _
  | peer :: peers => by
      refine receiveOne_sequential _ _ _ fun bytes => ?_
      split
      · exact compare_sequential outputs peers
      · exact .finish _

/-- The plaintext engine waits for one receive at a time. -/
theorem acts_sequential (context : EngineContext) : (acts context).Sequential := by
  refine sendAll_sequential _ (gather_sequential _ _ (fun bits => ?_) _ _ _) _
  cases context.evaluate bits with
  | returned outputs => exact sendAll_sequential _ (compare_sequential _ _) _
  | failed text => exact .finish _
  | crashed text => exact .finish _

end Plaintext

namespace Session

/-- All messages come at once. -/
def promptHistory : List Event :=
  [.message "bob" (0 :: List.replicate 32 7), .message "bob" [1, 1], .message "bob" [2, 1]]

/-- The fingerprint comes in two messages, the bytes for the engine come first and in the
other order, and the worker runs in between. -/
def delayedHistory : List Event :=
  [.message "bob" [2, 1], .run, .message "bob" (0 :: List.replicate 5 7), .run,
    .message "bob" (0 :: List.replicate 27 7), .message "bob" [1], .run, .message "bob" [1, 1]]

theorem timing_independent_pair : ∃ s : Session,
    start pairCompiled "alice" (.ofList [("a", .int 1)]) ⟨2, 9, Plaintext.acts⟩ (fun _ => none) =
      .ok s ∧
    (s.steps (promptHistory ++ [.run])).stage = .done ∧
    (s.steps (delayedHistory ++ [.run])).stage = .done ∧
    (s.steps (promptHistory ++ [.run])).result = (s.steps (delayedHistory ++ [.run])).result := by
  obtain ⟨s, hstart, hprompt, hdelayed, hnamed, hdropped, hpeers, hdone⟩ : ∃ s : Session,
      start pairCompiled "alice" (.ofList [("a", .int 1)]) ⟨2, 9, Plaintext.acts⟩
        (fun _ => none) = .ok s ∧
      s.Undisturbed promptHistory ∧ s.Undisturbed delayedHistory ∧
      s.peerNamed? "bob" = some 1 ∧ s.dropped = false ∧ s.peers = [1] ∧
      (s.steps (promptHistory ++ [.run])).stage = .done :=
    ⟨_, rfl, ⟨rfl, rfl, rfl, trivial⟩, ⟨rfl, rfl, rfl, rfl, rfl, trivial⟩, rfl, rfl, rfl, rfl⟩
  have hreceived : ∀ es, s.Undisturbed es → ∀ peer tag,
      s.received es peer tag = es.flatMap (s.arrival peer tag) := fun es h =>
    h.received_eq (start_standing hstart)
  have harrival : ∀ b payload peer tag, s.arrival peer tag (.message "bob" (b :: payload)) =
      if peer = 1 ∧ Tag.ofByte? b = some tag then payload else [] := by
    intro b payload peer tag
    simp only [arrival, hnamed, hdropped, true_and, Option.some.injEq, eq_comm]
  have hsame : ∀ peer tag,
      s.received promptHistory peer tag = s.received delayedHistory peer tag := by
    intro peer tag
    rw [hreceived _ hprompt, hreceived _ hdelayed]
    simp only [promptHistory, delayedHistory, List.flatMap_cons, List.flatMap_nil, harrival]
    by_cases hpeer : peer = 1
    · rcases tag with _ | _ | _ <;> simp [hpeer, arrival, Tag.ofByte?]
    · simp [hpeer, arrival]
  have hagree : ∀ peer ∈ s.peers,
      pairCompiled.fingerprint.bytes <+: s.received promptHistory peer .setup := by
    intro peer hpeer
    rw [hpeers, List.mem_singleton] at hpeer
    rw [hreceived _ hprompt, hpeer]
    simp only [promptHistory, List.flatMap_cons, harrival]
    exact List.prefix_append _ _
  obtain ⟨hstage, hresult, _⟩ :=
    timing_independent hstart Plaintext.acts_sequential hprompt hdelayed hsame hagree
  exact ⟨s, hstart, hdone, hstage ▸ hdone, hresult⟩

end Session

end JointCircuit

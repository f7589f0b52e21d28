import JointCircuit.Proofs.Session.Names
import JointCircuit.Proofs.Traffic.Basic

/-!
# What is on its way

The law of free traffic: what one session sent to the name of another under a tag is what
that one received, followed by what is on its way (`Traffic.Lawful`).  It holds for every
pair of sessions of which the receiver knows the sender, whatever setups they have, and no
move breaks it (`Traffic.Lawful.step`).

The proof does not need that the two are equal, but only a relation that both can be
continued in (`Traffic.Accounted`).  So the same steps carry weaker laws, for traffic in
which messages are lost.
-/

namespace JointCircuit

/-- The payload under a tag of messages on their way. -/
def carried (tag : Tag) (ms : List Bytes) : Bytes :=
  ms.flatMap fun
    | [] => []
    | b :: payload => if Tag.ofByte? b = some tag then payload else []

theorem carried_append (tag : Tag) (ms ms' : List Bytes) :
    carried tag (ms ++ ms') = carried tag ms ++ carried tag ms' :=
  List.flatMap_append

theorem carried_cons (tag : Tag) (m : Bytes) (ms : List Bytes) :
    carried tag (m :: ms) = carried tag [m] ++ carried tag ms :=
  carried_append tag [m] ms

theorem carried_frame (tag t : Tag) (payload : Bytes) :
    carried tag [Session.frame t payload] = if t = tag then payload else [] := by
  simp [carried, Session.frame, Tag.ofByte?_byte]

/-- Cutting a message does not change what is carried. -/
theorem carried_cutAt (tag : Tag) (size : Nat) :
    ∀ (number : Nat) (ms : List Bytes), carried tag (Traffic.cutAt size number ms) = carried tag ms
  | _, [] => by simp [Traffic.cutAt]
  | 0, [] :: ms => rfl
  | 0, (b :: payload) :: ms => by
      rw [Traffic.cutAt, carried_cons, carried_cons tag (b :: payload.drop size),
        carried_cons tag (b :: payload), ← List.append_assoc]
      congr 1
      simp only [carried, List.flatMap_cons, List.flatMap_nil, List.append_nil]
      split
      · exact List.take_append_drop size payload
      · rfl
  | number + 1, m :: ms => by
      rw [Traffic.cutAt, carried_cons, carried_cutAt tag size number ms, ← carried_cons]

namespace Session

/-- The payload that was sent to a name under a tag, among deeds. -/
def sentToAmong (s : Session) (ds : List Deed) (name : String) (tag : Tag) : Bytes :=
  ds.flatMap fun
    | .sent peer t payload => if s.nameOf peer = name ∧ t = tag then payload else []
    | _ => []

/-- The payload that the session sent to a name under a tag. -/
def sentTo (s : Session) (name : String) (tag : Tag) : Bytes :=
  s.sentToAmong s.deeds.toList name tag

theorem sentToAmong_append (s : Session) (ds es : List Deed) (name : String) (tag : Tag) :
    s.sentToAmong (ds ++ es) name tag = s.sentToAmong ds name tag ++ s.sentToAmong es name tag :=
  List.flatMap_append

/-- The messages to a name carry what was sent to it. -/
theorem carried_mailTo (s : Session) (name : String) (tag : Tag) :
    ∀ ds : List Deed, carried tag (s.mailTo ds name) = s.sentToAmong ds name tag
  | [] => rfl
  | d :: ds => by
      have ih := carried_mailTo s name tag ds
      cases d with
      | sent peer t payload =>
          have hrest : s.mailTo (.sent peer t payload :: ds) name =
              (if s.nameOf peer = name then [frame t payload] else []) ++ s.mailTo ds name := by
            by_cases hname : s.nameOf peer = name <;> simp [mailTo, sentAmong, hname]
          rw [hrest, carried_append, ih]
          by_cases hname : s.nameOf peer = name
          · rw [if_pos hname, carried_frame]
            simp [sentToAmong, hname]
          · simp [sentToAmong, hname, carried]
      | took peer t bytes => exact ih
      | started => exact ih
      | noted entry => exact ih

theorem mailTo_framed (s : Session) (ds : List Deed) (name : String) :
    ∀ m ∈ s.mailTo ds name, ∃ tag payload, m = frame tag payload := by
  intro m hm
  obtain ⟨⟨peer, bytes⟩, hsent, hname⟩ := List.mem_filterMap.mp hm
  split at hname
  · cases hname
    obtain ⟨d, _, hd⟩ := List.mem_filterMap.mp hsent
    cases d with
    | sent p tag payload =>
        cases hd
        exact ⟨tag, payload, rfl⟩
    | _ => cases hd
  · cases hname

/-- Messages go to names of other parties. -/
theorem mailTo_addressed {s : Session} {ds : List Deed} (h : s.Addressed ds) {name : String}
    (hmail : s.mailTo ds name ≠ []) : ∃ q ∈ s.peers, s.nameOf q = name := by
  obtain ⟨m, hm⟩ := List.exists_mem_of_ne_nil _ hmail
  obtain ⟨⟨peer, bytes⟩, hsent, hname⟩ := List.mem_filterMap.mp hm
  obtain ⟨d, hd, hmessage⟩ := List.mem_filterMap.mp hsent
  cases d with
  | sent p tag payload =>
      cases hmessage
      refine ⟨peer, mem_peers.mpr (h peer tag payload hd), ?_⟩
      by_contra hne
      rw [if_neg hne] at hname
      cases hname
  | _ => cases hmessage

theorem ownName_congr {s s' : Session} (hc : s'.compiled = s.compiled) (hp : s'.party = s.party) :
    s'.ownName = s.ownName := by
  rw [ownName, ownName, nameOf_congr hc, hp]

theorem mailTo_congr {s s' : Session} (hc : s'.compiled = s.compiled) : s'.mailTo = s.mailTo := by
  funext ds name
  rw [mailTo, mailTo, nameOf_congr hc]

theorem sentToAmong_congr {s s' : Session} (hc : s'.compiled = s.compiled) :
    s'.sentToAmong = s.sentToAmong := by
  funext ds name tag
  rw [sentToAmong, sentToAmong, nameOf_congr hc]

theorem message_deeds (s : Session) (name : String) (m : Bytes) :
    (s.step (.message name m)).2.deeds = s.deeds := by
  rw [Session.step]
  split
  · rfl
  · rw [handleMessage]
    split
    · rename_i s' haccept
      obtain ⟨_, _, _, _, _, _, _, rfl⟩ := accept_eq_ok.mp haccept
      rfl
    · rw [conclude_eq]

theorem message_dropped (s : Session) (name : String) (m : Bytes) :
    (s.step (.message name m)).2.dropped = s.dropped := by
  rw [Session.step]
  split
  · rfl
  · rw [handleMessage]
    split
    · rename_i s' haccept
      obtain ⟨_, _, _, _, _, _, _, rfl⟩ := accept_eq_ok.mp haccept
      rfl
    · exact (conclude_keeps s _).dropped

/-- A message of a known peer brings what it carries. -/
theorem arrival_eq_carried {s : Session} {name : String} {peer : Nat} (hdropped : s.dropped = false)
    (hpeer : s.peerNamed? name = some peer) (tag : Tag) (m : Bytes) :
    s.arrival peer tag (.message name m) = carried tag [m] := by
  cases m with
  | nil => rfl
  | cons b payload => simp [arrival, carried, hdropped, hpeer]

theorem arrival_of_ne {s : Session} {name : String} {peer : Nat}
    (hpeer : s.peerNamed? name ≠ some peer) (tag : Tag) (m : Bytes) :
    s.arrival peer tag (.message name m) = [] := by
  cases m with
  | nil => rfl
  | cons b payload => rw [arrival, if_neg fun h => hpeer h.2.1]

end Session

namespace Traffic

theorem cutAt_framed (size : Nat) :
    ∀ (number : Nat) {ms : List Bytes}, (∀ m ∈ ms, ∃ tag payload, m = Session.frame tag payload) →
      ∀ m ∈ cutAt size number ms, ∃ tag payload, m = Session.frame tag payload
  | _, [], _ => by simp [cutAt]
  | 0, [] :: ms, h => h
  | 0, (b :: payload) :: ms, h => by
      rw [List.forall_mem_cons] at h
      obtain ⟨⟨tag, whole, heq⟩, hrest⟩ := h
      cases heq
      rw [cutAt, List.forall_mem_cons, List.forall_mem_cons]
      exact ⟨⟨tag, _, rfl⟩, ⟨tag, _, rfl⟩, hrest⟩
  | number + 1, m :: ms, h => by
      rw [List.forall_mem_cons] at h
      rw [cutAt, List.forall_mem_cons]
      exact ⟨h.1, cutAt_framed size number h.2⟩

variable {ι : Type}

/-- What was sent from one session to another is in a relation to what was received and what
is on its way. -/
structure Accounted (R : Bytes → Bytes → Prop) (t : Traffic ι) : Prop where
  /-- The sessions have their names for themselves. -/
  names : Function.Injective fun i => (t.session i).ownName
  standing : ∀ i, (t.session i).Standing
  held : ∀ i, (t.session i).dropped = false
  framed : ∀ i name, ∀ m ∈ t.flight i name, ∃ tag payload, m = Session.frame tag payload
  addressed : ∀ i name, t.flight i name ≠ [] →
    ∃ q ∈ (t.session i).peers, (t.session i).nameOf q = name
  /-- What was received of a peer came from a session. -/
  known : ∀ j peer tag, (t.session j).inbox peer tag ≠ [] →
    ∃ i, (t.session j).peerNamed? (t.session i).ownName = some peer
  law : ∀ i j peer tag, (t.session j).peerNamed? (t.session i).ownName = some peer →
    R ((t.session i).sentTo (t.session j).ownName tag)
      ((t.session j).inbox peer tag ++ carried tag (t.flight i (t.session j).ownName))

/-- Nothing is lost, and the order is kept. -/
abbrev Lawful (t : Traffic ι) : Prop := t.Accounted Eq

variable {R : Bytes → Bytes → Prop}

/-- Sessions with names of their own start where nothing was sent or received. -/
theorem start_accounted (hempty : R [] []) {session : ι → Session}
    (hnames : Function.Injective fun i => (session i).ownName)
    (hstart : ∀ i, ∃ c name values program faulty,
      Session.start c name values program faulty = .ok (session i)) :
    (start session).Accounted R := by
  have hsent : ∀ i name tag, (session i).sentTo name tag = [] := by
    intro i name tag
    obtain ⟨c, _, values, program, faulty, h⟩ := hstart i
    obtain ⟨_, _, _, _, heq⟩ := Session.start_eq_ok h
    rw [heq]
    rfl
  have hinbox : ∀ j peer tag, (session j).inbox peer tag = [] := by
    intro j peer tag
    obtain ⟨_, _, _, _, _, h⟩ := hstart j
    exact Session.inbox_steps h [] peer tag
  refine ⟨hnames, fun i => ?_, fun i => ?_, fun i name m hm => absurd hm List.not_mem_nil,
    fun i name hne => absurd rfl hne, fun j peer tag hne => absurd (hinbox j peer tag) hne,
    fun i j peer tag _ => ?_⟩
  · obtain ⟨c, name, values, program, faulty, h⟩ := hstart i
    exact Session.start_standing h
  · obtain ⟨c, name, values, program, faulty, h⟩ := hstart i
    obtain ⟨_, _, _, _, heq⟩ := Session.start_eq_ok h
    change (session i).dropped = false
    rw [heq]
  · change R ((session i).sentTo (session j).ownName tag)
      ((session j).inbox peer tag ++ carried tag [])
    rw [hsent, hinbox]
    exact hempty

namespace Accounted

variable [DecidableEq ι] {t : Traffic ι}

/-- A run puts the messages of new deeds on their way. -/
theorem run_flight (h : t.Accounted R) (i : ι) : ∃ ds,
    ((t.run i).session i).deeds.toList = (t.session i).deeds.toList ++ ds ∧
      (t.session i).Addressed ds ∧
      ∀ name, (t.run i).flight i name =
        t.flight i name ++ ((t.run i).session i).mailTo ds name := by
  obtain ⟨ds, hds, haddressed⟩ := (h.standing i).run_keeps.deeds
  have hsince : (t.session i).run.deedsSince (t.session i).deeds.size = ds := by
    rw [Session.deedsSince, hds, ← Array.length_toList, List.drop_left]
  refine ⟨ds, ?_, haddressed, fun name => ?_⟩
  · rw [run_session_self, hds]
  · simp [Traffic.run, hsince]

theorem run_keeps (h : t.Accounted R) (i j : ι) : (t.session j).Keeps ((t.run i).session j) := by
  by_cases hj : j = i
  · subst hj
    rw [run_session_self]
    exact (h.standing j).run_keeps
  · rw [run_session_of_ne t hj]
    exact .refl _

/-- A message leaves the setup, the party and the deeds of every session alone. -/
theorem message_frame (h : t.Accounted R) (j : ι) (name : String) (m : Bytes) (k : ι) :
    (Function.update t.session j ((t.session j).step (.message name m)).2 k).compiled =
        (t.session k).compiled ∧
      (Function.update t.session j ((t.session j).step (.message name m)).2 k).party =
        (t.session k).party ∧
      (Function.update t.session j ((t.session j).step (.message name m)).2 k).deeds =
        (t.session k).deeds := by
  by_cases hk : k = j
  · subst hk
    obtain ⟨hc, hp, _⟩ := (h.standing k).step_frame (.message name m)
    rw [Function.update_self]
    exact ⟨hc, hp, (t.session k).message_deeds name m⟩
  · rw [Function.update_of_ne hk]
    exact ⟨rfl, rfl, rfl⟩

/-- A run of a worker makes what was sent and what is on its way longer by the same bytes. -/
theorem run (h : t.Accounted R) (hR : ∀ {x y} z, R x y → R (x ++ z) (y ++ z)) (i : ι) :
    (t.run i).Accounted R := by
  have hkeeps := h.run_keeps i
  have hname : ∀ j, ((t.run i).session j).ownName = (t.session j).ownName := fun j =>
    Session.ownName_congr (hkeeps j).compiled (hkeeps j).party
  obtain ⟨ds, hds, haddressed, hflight⟩ := h.run_flight i
  refine ⟨?_, fun j => ?_, fun j => ?_, fun j name m hm => ?_, fun j name hne => ?_,
    fun j peer tag hne => ?_, fun a b peer tag hpeer => ?_⟩
  · simpa only [hname] using h.names
  · by_cases hj : j = i
    · subst hj
      rw [run_session_self]
      exact (h.standing j).run
    · rw [run_session_of_ne t hj]
      exact h.standing j
  · rw [(hkeeps j).dropped]
    exact h.held j
  · by_cases hj : j = i
    · subst hj
      rw [hflight, List.mem_append] at hm
      exact hm.elim (h.framed j name m) (Session.mailTo_framed _ _ _ m)
    · rw [run_flight_of_ne t hj] at hm
      exact h.framed j name m hm
  · rw [Session.peers_congr (hkeeps j).compiled (hkeeps j).party,
      Session.nameOf_congr (hkeeps j).compiled]
    by_cases hj : j = i
    · subst hj
      by_cases hold : t.flight j name = []
      · rw [hflight, hold, List.nil_append, Session.mailTo_congr (hkeeps j).compiled] at hne
        exact Session.mailTo_addressed haddressed hne
      · exact h.addressed j name hold
    · rw [run_flight_of_ne t hj] at hne
      exact h.addressed j name hne
  · rw [(hkeeps j).inbox] at hne
    obtain ⟨a, ha⟩ := h.known j peer tag hne
    exact ⟨a, by rw [hname, Session.peerNamed?_congr (hkeeps j).compiled (hkeeps j).party, ha]⟩
  · rw [hname, Session.peerNamed?_congr (hkeeps b).compiled (hkeeps b).party] at hpeer
    have hlaw := h.law a b peer tag hpeer
    rw [hname, (hkeeps b).inbox]
    by_cases ha : a = i
    · -- the sender ran: what it sent is now on its way
      subst ha
      rw [hflight, carried_append, Session.carried_mailTo, ← List.append_assoc, Session.sentTo, hds,
        Session.sentToAmong_append, Session.sentToAmong_congr (hkeeps a).compiled]
      exact hR _ hlaw
    · rw [run_flight_of_ne t ha, run_session_of_ne t ha]
      exact hlaw

/-- A delivery moves bytes from what is on its way to what was received. -/
theorem deliver (h : t.Accounted R) (i j : ι) : (t.deliver i j).Accounted R := by
  rw [Traffic.deliver]
  cases hflight : t.flight i (t.session j).ownName with
  | nil => exact h
  | cons m ms =>
      simp only
      have hstep := (h.standing j).step (.message (t.session i).ownName m)
      have hsame := h.message_frame j (t.session i).ownName m
      have hinbox := (h.standing j).inbox_step (.message (t.session i).ownName m)
      have hheld := (t.session j).message_dropped (t.session i).ownName m
      generalize ((t.session j).step (.message (t.session i).ownName m)).2 = s' at *
      -- the receiver has the name, the peers and the deeds it had before
      have hname : ∀ k, (Function.update t.session j s' k).ownName = (t.session k).ownName :=
        fun k => Session.ownName_congr (hsame k).1 (hsame k).2.1
      refine ⟨?_, fun k => ?_, fun k => ?_, fun k name => ?_, fun k name hne => ?_,
        fun k peer tag hne => ?_, fun a b peer tag hpeer => ?_⟩
      · simpa only [hname] using h.names
      · by_cases hk : k = j
        · subst hk
          simpa using hstep
        · simpa [hk] using h.standing k
      · by_cases hk : k = j
        · subst hk
          simpa [hheld] using h.held k
        · simpa [hk] using h.held k
      · intro m' hm'
        by_cases hk : k = i
        · subst hk
          by_cases hn : name = (t.session j).ownName
          · subst hn
            simp only [Function.update_self] at hm'
            exact h.framed k _ m' (hflight ▸ List.mem_cons_of_mem m hm')
          · exact h.framed k name m' (by simpa [hn] using hm')
        · exact h.framed k name m' (by simpa [hk] using hm')
      · simp only [Session.peers_congr (hsame k).1 (hsame k).2.1, Session.nameOf_congr (hsame k).1]
        refine h.addressed k name fun hnil => hne ?_
        by_cases hk : k = i
        · subst hk
          have hn : name ≠ (t.session j).ownName := by
            rintro rfl
            rw [hflight] at hnil
            cases hnil
          simpa [hn] using hnil
        · simpa [hk] using hnil
      · simp only [hname, Session.peerNamed?_congr (hsame k).1 (hsame k).2.1]
        by_cases hk : k = j
        · subst hk
          simp only [Function.update_self, hinbox] at hne
          by_cases hold : (t.session k).inbox peer tag = []
          · -- the first bytes of the peer are those of the message
            refine ⟨i, ?_⟩
            by_contra hnot
            exact hne (by rw [hold, Session.arrival_of_ne hnot, List.append_nil])
          · exact h.known k peer tag hold
        · exact h.known k peer tag (by simpa [hk] using hne)
      · simp only [hname] at hpeer ⊢
        rw [Session.peerNamed?_congr (hsame b).1 (hsame b).2.1] at hpeer
        have hsent : (Function.update t.session j s' a).sentTo (t.session b).ownName tag =
            (t.session a).sentTo (t.session b).ownName tag := by
          rw [Session.sentTo, Session.sentToAmong_congr (hsame a).1, (hsame a).2.2, Session.sentTo]
        have hrest : (Function.update t.session j s' b).inbox peer tag ++
            carried tag (Function.update t.flight i
              (Function.update (t.flight i) (t.session j).ownName ms) a (t.session b).ownName) =
            (t.session b).inbox peer tag ++ carried tag (t.flight a (t.session b).ownName) := by
          by_cases hb : b = j
          · subst hb
            simp only [Function.update_self, hinbox]
            by_cases ha : a = i
            · subst ha
              rw [Session.arrival_eq_carried (h.held b) hpeer, hflight, carried_cons tag m ms]
              simp only [Function.update_self, List.append_assoc]
            · -- a message of another peer
              have hne : (t.session b).peerNamed? (t.session i).ownName ≠ some peer := by
                intro hi
                refine ha (h.names ?_)
                exact (Session.nameOf_peerNamed? hpeer).symm.trans (Session.nameOf_peerNamed? hi)
              rw [Session.arrival_of_ne hne]
              simp [ha]
          · have hn : (t.session b).ownName ≠ (t.session j).ownName := fun heq => hb (h.names heq)
            by_cases ha : a = i
            · subst ha
              simp [hb, hn]
            · simp [hb, ha]
        rw [hsent, hrest]
        exact h.law a b peer tag hpeer

/-- The messages from a session to a name may be replaced by others, if what they carry can be
replaced. -/
theorem replace (h : t.Accounted R) (i : ι) (name : String) {ms : List Bytes}
    (hframed : ∀ m ∈ ms, ∃ tag payload, m = Session.frame tag payload)
    (hnil : t.flight i name = [] → ms = [])
    (hlaw : ∀ tag x y, R x (y ++ carried tag (t.flight i name)) → R x (y ++ carried tag ms)) :
    Accounted R
      { t with flight := Function.update t.flight i (Function.update (t.flight i) name ms) } := by
  refine ⟨h.names, h.standing, h.held, fun k n => ?_, fun k n hne => ?_, h.known,
    fun a b peer tag hpeer => ?_⟩
  · by_cases hk : k = i
    · subst hk
      by_cases hn : n = name
      · subst hn
        simpa using hframed
      · simpa [hn] using h.framed k n
    · simpa [hk] using h.framed k n
  · refine h.addressed k n fun hempty => hne ?_
    by_cases hk : k = i
    · subst hk
      by_cases hn : n = name
      · subst hn
        simpa using hnil hempty
      · simpa [hn] using hempty
    · simpa [hk] using hempty
  · have hold := h.law a b peer tag hpeer
    by_cases ha : a = i
    · subst ha
      by_cases hn : (t.session b).ownName = name
      · subst hn
        simpa using hlaw tag _ _ hold
      · simpa [hn] using hold
    · simpa [ha] using hold

theorem step (h : t.Accounted R) (hR : ∀ {x y} z, R x y → R (x ++ z) (y ++ z)) (m : Move ι) :
    (t.step m).Accounted R := by
  cases m with
  | run i => exact h.run hR i
  | deliver i j => exact h.deliver i j
  | cut i name number size =>
      refine h.replace i name (cutAt_framed size number (h.framed i name)) (fun hnil => ?_)
        fun tag x y hxy => ?_
      · rw [hnil, cutAt]
      · rwa [carried_cutAt]

/-- A move leaves the setup and the party of every session alone. -/
theorem step_frame (h : t.Accounted R) (m : Move ι) (k : ι) :
    ((t.step m).session k).compiled = (t.session k).compiled ∧
      ((t.step m).session k).party = (t.session k).party := by
  cases m with
  | run i => exact ⟨(h.run_keeps i k).compiled, (h.run_keeps i k).party⟩
  | deliver i j =>
      rw [Traffic.step, Traffic.deliver]
      cases t.flight i (t.session j).ownName with
      | nil => exact ⟨rfl, rfl⟩
      | cons m ms =>
          obtain ⟨hc, hp, _⟩ := h.message_frame j (t.session i).ownName m k
          exact ⟨hc, hp⟩
  | cut i name number size => exact ⟨rfl, rfl⟩

end Accounted

/-! ## Traffic in which nothing is lost -/

/-- Sessions with names of their own start in lawful traffic. -/
theorem start_lawful {session : ι → Session}
    (hnames : Function.Injective fun i => (session i).ownName)
    (hstart : ∀ i, ∃ c name values program faulty,
      Session.start c name values program faulty = .ok (session i)) :
    (start session).Lawful :=
  start_accounted rfl hnames hstart

namespace Lawful

variable [DecidableEq ι] {t : Traffic ι}

theorem step (h : t.Lawful) (m : Move ι) : (t.step m).Lawful :=
  Accounted.step h (fun z hxy => congrArg (· ++ z) hxy) m

end Lawful

end Traffic

end JointCircuit

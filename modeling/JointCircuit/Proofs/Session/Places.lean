import JointCircuit.Proofs.Session.Idle
import JointCircuit.Session.Notify

/-!
# Receives by their places

The open receives of a worker have places, which do not change while some of them complete.
`Session.servePlaces` goes through some of the places once and completes each receive whose
bytes are there.  Trying all receives of an engine is one such pass
(`Session.servePlaces_waiting`), and so is collecting the fingerprints of a handshake, as far
as it goes (`Session.servePlaces_greeting`).

`Session.reach` is a run of an engine without its receives, and does not depend on what the
worker did before (`Session.reach_worker`).
-/

namespace JointCircuit

/-! ## Open receives -/

theorem mem_wants_greeting {gs : List Greeting} {r : Want} :
    r ∈ (Worker.greeting gs).wants ↔
      ∃ g ∈ gs, g.isOpen = true ∧ r = ⟨g.peer, .setup, fingerprintSize⟩ := by
  simp only [Worker.wants, Greeting.want?, List.mem_filterMap, Option.ite_none_right_eq_some,
    Option.some.injEq, eq_comm (a := r)]

theorem mem_wants_waiting {ws : List Wait} {next : List Received → Engine} {r : Want} :
    r ∈ (Worker.waiting ws next).wants ↔
      ∃ q, .pending q ∈ ws ∧ r = ⟨q.peer, .engine q.channel, q.count⟩ := by
  rw [Worker.wants, List.mem_filterMap]
  constructor
  · rintro ⟨w, hw, hr⟩
    cases w with
    | pending q => exact ⟨q, hw, (Option.some.inj hr).symm⟩
    | closed answer => cases hr
  · rintro ⟨q, hq, rfl⟩
    exact ⟨.pending q, hq, rfl⟩

/-- Waits without answers have a receive among them that is open. -/
theorem exists_pending : ∀ {ws : List Wait}, Wait.answers? ws = none → ∃ r, .pending r ∈ ws
  | .pending r :: ws, _ => ⟨r, List.mem_cons_self⟩
  | .closed answer :: ws, h => by
      rw [Wait.answers?, Option.map_eq_none_iff] at h
      obtain ⟨r, hr⟩ := exists_pending h
      exact ⟨r, List.mem_cons_of_mem _ hr⟩

theorem mem_filterMap_iff_getElem? {α β : Type} {f : α → Option β} {xs : List α} {y : β} :
    y ∈ xs.filterMap f ↔ ∃ i : Nat, xs[i]?.bind f = some y := by
  simp only [List.mem_filterMap, Option.bind_eq_some_iff]
  constructor
  · rintro ⟨x, hx, hy⟩
    obtain ⟨i, hi⟩ := List.mem_iff_getElem?.mp hx
    exact ⟨i, x, hi, hy⟩
  · rintro ⟨i, x, hi, hy⟩
    exact ⟨x, List.mem_of_getElem? hi, hy⟩

namespace Worker

/-- The open receives are those at the places. -/
theorem mem_wants_iff {x : Worker} {r : Want} :
    r ∈ x.wants ↔ ∃ place, x.wantAt? place = some r := by
  cases x with
  | greeting gs => exact mem_filterMap_iff_getElem?
  | waiting ws next => exact mem_filterMap_iff_getElem?
  | fresh => simp [wants, wantAt?]
  | ended => simp [wants, wantAt?]

/-- The receive that completes is not open any more. -/
theorem wantAt?_complete_self (x : Worker) (own : Fingerprint) (place : Nat) (bytes : Bytes) :
    (x.complete own place bytes).wantAt? place = none := by
  cases x with
  | greeting gs =>
      rw [complete, wantAt?, List.getElem?_modify_eq]
      cases gs[place]? with
      | none => rfl
      | some g => rfl
  | waiting ws next =>
      rw [complete, wantAt?, List.getElem?_set, if_pos rfl]
      split <;> rfl
  | fresh => rfl
  | ended => rfl

/-- The other receives stay as they are. -/
theorem wantAt?_complete_of_ne (x : Worker) (own : Fingerprint) {place i : Nat} (bytes : Bytes)
    (h : i ≠ place) : (x.complete own place bytes).wantAt? i = x.wantAt? i := by
  cases x with
  | greeting gs => rw [complete, wantAt?, List.getElem?_modify_ne _ _ h.symm, wantAt?]
  | waiting ws next => rw [complete, wantAt?, List.getElem?_set_ne h.symm, wantAt?]
  | fresh => rfl
  | ended => rfl

/-- The number of receives of a worker, open or not. -/
def width : Worker → Nat
  | .greeting gs => gs.length
  | .waiting ws _ => ws.length
  | _ => 0

theorem lt_width {x : Worker} {place : Nat} {r : Want} (h : x.wantAt? place = some r) :
    place < x.width := by
  cases x with
  | greeting gs =>
      obtain ⟨g, hg, _⟩ := Option.bind_eq_some_iff.mp h
      exact (List.getElem?_eq_some_iff.mp hg).1
  | waiting ws next =>
      obtain ⟨q, hq, _⟩ := Option.bind_eq_some_iff.mp h
      exact (List.getElem?_eq_some_iff.mp hq).1
  | fresh => cases h
  | ended => cases h

theorem width_complete (x : Worker) (own : Fingerprint) (place : Nat) (bytes : Bytes) :
    (x.complete own place bytes).width = x.width := by
  cases x with
  | greeting gs => exact List.length_modify ..
  | waiting ws next => exact List.length_set
  | fresh => rfl
  | ended => rfl

end Worker

namespace Session

variable {s t : Session} {place : Nat} {r : Want}

/-- A receive asks for more bytes than are queued. -/
def Lacks (s : Session) (r : Want) : Prop := (s.mailbox.queue r.peer r.tag).length < r.count

theorem serve?_eq_none : s.serve? place r = none ↔ s.Lacks r := by
  rw [Lacks, ← take?_eq_none, serve?]
  cases s.take? r.peer r.tag r.count with
  | none => exact iff_of_true rfl rfl
  | some taken => exact iff_of_false (Option.some_ne_none _) (Option.some_ne_none _)

theorem serve?_eq_some : s.serve? place r = some t ↔ ∃ bytes u,
    s.take? r.peer r.tag r.count = some (bytes, u) ∧
      t = { u with worker := u.worker.complete u.compiled.fingerprint place bytes } := by
  rw [serve?]
  cases s.take? r.peer r.tag r.count with
  | none =>
      constructor
      · intro h
        cases h
      · rintro ⟨_, _, htaken, _⟩
        cases htaken
  | some taken =>
      constructor
      · intro h
        exact ⟨taken.1, taken.2, rfl, (Option.some.inj h).symm⟩
      · rintro ⟨bytes, u, htaken, rfl⟩
        cases htaken
        rfl

/-- A receive that completes is not open any more, and opens no other. -/
theorem wantAt?_serve (h : s.serve? place r = some t) :
    t.worker.wantAt? place = none ∧
      ∀ i, i ≠ place → t.worker.wantAt? i = s.worker.wantAt? i := by
  obtain ⟨bytes, u, htake, rfl⟩ := serve?_eq_some.mp h
  obtain ⟨mailbox, _, rfl⟩ := take?_eq_some.mp htake
  exact ⟨Worker.wantAt?_complete_self .., fun i hi => Worker.wantAt?_complete_of_ne _ _ _ hi⟩

theorem queue_serve_le (h : s.serve? place r = some t) (peer : Nat) (tag : Tag) :
    (t.mailbox.queue peer tag).length ≤ (s.mailbox.queue peer tag).length := by
  obtain ⟨bytes, u, htake, rfl⟩ := serve?_eq_some.mp h
  exact queue_take_le htake peer tag

/-! ## Going through places -/

/-- Complete the receive at a place, if its bytes are there. -/
def servePlace (s : Session) (place : Nat) : Session :=
  match s.worker.wantAt? place with
  | none => s
  | some r => (s.serve? place r).getD s

/-- Go through places in turn. -/
def servePlaces (places : List Nat) (s : Session) : Session := places.foldl servePlace s

theorem servePlaces_cons (place : Nat) (places : List Nat) (s : Session) :
    servePlaces (place :: places) s = servePlaces places (s.servePlace place) :=
  rfl

theorem servePlace_of_closed (h : s.worker.wantAt? place = none) : s.servePlace place = s := by
  rw [servePlace, h]

theorem servePlace_of_lacks (h : s.worker.wantAt? place = some r) (hlacks : s.Lacks r) :
    s.servePlace place = s := by
  rw [servePlace, h]
  simp only [serve?_eq_none.mpr hlacks, Option.getD_none]

theorem servePlace_of_serve (h : s.worker.wantAt? place = some r)
    (hserve : s.serve? place r = some t) : s.servePlace place = t := by
  rw [servePlace, h]
  simp only [hserve, Option.getD_some]

/-- A receive that is complete stays so. -/
theorem wantAt?_servePlaces {places : List Nat} (h : s.worker.wantAt? place = none) :
    (servePlaces places s).worker.wantAt? place = none := by
  induction places generalizing s with
  | nil => exact h
  | cons j places ih =>
      rw [servePlaces_cons]
      refine ih ?_
      cases hwant : s.worker.wantAt? j with
      | none => rwa [servePlace_of_closed hwant]
      | some r =>
          cases hserve : s.serve? j r with
          | none => rwa [servePlace_of_lacks hwant (serve?_eq_none.mp hserve)]
          | some t =>
              rw [servePlace_of_serve hwant hserve]
              obtain ⟨hself, hothers⟩ := wantAt?_serve hserve
              by_cases hi : place = j
              · exact hi ▸ hself
              · rw [hothers place hi, h]

/-! ### What the worker waits for -/

theorem take?_worker (s : Session) (x : Worker) (peer : Nat) (tag : Tag) (count : Nat) :
    ({ s with worker := x } : Session).take? peer tag count =
      (s.take? peer tag count).map fun taken => (taken.1, { taken.2 with worker := x }) := by
  rw [take?, take?]
  cases s.mailbox.take? peer tag count with
  | none => rfl
  | some taken => rfl

theorem serve?_worker (x : Worker) (place : Nat) {bytes : Bytes}
    (h : s.take? r.peer r.tag r.count = some (bytes, t)) :
    ({ s with worker := x } : Session).serve? place r =
      some { t with worker := x.complete t.compiled.fingerprint place bytes } := by
  rw [serve?, take?_worker, h]
  rfl

/-- A pass over the places of receives tries them in order. -/
theorem servePlaces_waiting (next : List Received → Engine) :
    ∀ (ws pre : List Wait) (s : Session),
      servePlaces (List.range' pre.length ws.length)
          { s with worker := .waiting (pre ++ ws) next } =
        { (tryWaits ws s).2 with worker := .waiting (pre ++ (tryWaits ws s).1) next }
  | [], _, _ => rfl
  | w :: ws, pre, s => by
      have hplace : (Worker.waiting (pre ++ w :: ws) next).wantAt? pre.length = w.want? := by
        rw [Worker.wantAt?, List.getElem?_append_right (Nat.le_refl _), Nat.sub_self]
        rfl
      have hrest : ∀ (w' : Wait) (t : Session),
          servePlaces (List.range' (pre.length + 1) ws.length)
              { t with worker := .waiting (pre ++ w' :: ws) next } =
            { (tryWaits ws t).2 with
              worker := .waiting (pre ++ w' :: (tryWaits ws t).1) next } := by
        intro w' t
        have hlen : (pre ++ [w']).length = pre.length + 1 := List.length_append
        rw [List.append_cons, ← hlen, servePlaces_waiting next ws (pre ++ [w']) t,
          ← List.append_cons]
      rw [List.length_cons, List.range'_succ, servePlaces_cons]
      cases w with
      | closed answer => rw [servePlace_of_closed hplace, hrest, tryWaits]
      | pending r =>
          rw [tryWaits]
          cases htake : s.take? r.peer (.engine r.channel) r.count with
          | none =>
              have hlacks : Lacks { s with worker := .waiting (pre ++ .pending r :: ws) next }
                  ⟨r.peer, .engine r.channel, r.count⟩ := (take?_eq_none (s := s)).mp htake
              rw [servePlace_of_lacks hplace hlacks, hrest]
          | some taken =>
              obtain ⟨bytes, t⟩ := taken
              have hset : (pre ++ .pending r :: ws).set pre.length (.closed (.ok bytes)) =
                  pre ++ .closed (.ok bytes) :: ws := by
                rw [List.set_append_right _ _ (Nat.le_refl _), Nat.sub_self]
                rfl
              rw [servePlace_of_serve hplace (serve?_worker _ _ htake), Worker.complete, hset,
                hrest]

theorem modify_length (pre : List Greeting) (g : Greeting) (gs : List Greeting)
    (f : Greeting → Greeting) : (pre ++ g :: gs).modify pre.length f = pre ++ f g :: gs := by
  induction pre with
  | nil => rfl
  | cons p pre ih => rw [List.cons_append, List.length_cons, List.modify_succ_cons, ih]; rfl

/-- A pass over the places of greetings collects the fingerprints.  In an eager session it
ends at the first one that differs. -/
theorem servePlaces_greeting : ∀ (gs pre : List Greeting) (s : Session), ∃ k ≤ gs.length,
    servePlaces (List.range' pre.length k) { s with worker := .greeting (pre ++ gs) } =
        { (collect gs s).2 with worker := .greeting (pre ++ (collect gs s).1) } ∧
      (k < gs.length → s.isEager = true ∧ ∃ g ∈ (collect gs s).1, g.differs = true)
  | [], _, _ => ⟨0, Nat.le_refl _, rfl, fun h => absurd h (Nat.not_lt_zero 0)⟩
  | g :: gs, pre, s => by
      have hplace : (Worker.greeting (pre ++ g :: gs)).wantAt? pre.length = g.want? := by
        rw [Worker.wantAt?, List.getElem?_append_right (Nat.le_refl _), Nat.sub_self]
        rfl
      have hrest : ∀ (g' : Greeting) (t : Session), t.isEager = s.isEager → ∃ k ≤ gs.length,
          servePlaces (List.range' (pre.length + 1) k)
              { t with worker := .greeting (pre ++ g' :: gs) } =
            { (collect gs t).2 with worker := .greeting (pre ++ g' :: (collect gs t).1) } ∧
          (k + 1 < (g :: gs).length →
            s.isEager = true ∧ ∃ q ∈ g' :: (collect gs t).1, q.differs = true) := by
        intro g' t heager
        have hlen : (pre ++ [g']).length = pre.length + 1 := List.length_append
        obtain ⟨k, hk, hpass, hstop⟩ := servePlaces_greeting gs (pre ++ [g']) t
        rw [← List.append_cons, hlen, ← List.append_cons] at hpass
        refine ⟨k, hk, hpass, fun hlt => ?_⟩
        obtain ⟨hfast, q, hq, hdiffers⟩ := hstop (Nat.lt_of_succ_lt_succ hlt)
        exact ⟨heager ▸ hfast, q, List.mem_cons_of_mem _ hq, hdiffers⟩
      rw [collect]
      by_cases hopen : g.isOpen = true
      · rw [if_pos hopen]
        rw [Greeting.want?, if_pos hopen] at hplace
        cases htake : s.take? g.peer .setup fingerprintSize with
        | none =>
            obtain ⟨k, hk, hpass, hstop⟩ := hrest g s rfl
            refine ⟨k + 1, Nat.succ_le_succ hk, ?_, hstop⟩
            have hlacks : Lacks { s with worker := .greeting (pre ++ g :: gs) }
                ⟨g.peer, .setup, fingerprintSize⟩ := (take?_eq_none (s := s)).mp htake
            rw [List.range'_succ, servePlaces_cons, servePlace_of_lacks hplace hlacks, hpass]
        | some taken =>
            obtain ⟨bytes, t⟩ := taken
            have hframe : t.compiled = s.compiled := by
              obtain ⟨_, _, rfl⟩ := take?_eq_some.mp htake
              rfl
            have heager : t.isEager = s.isEager := by rw [isEager, hframe, isEager]
            have hserve : ∀ is, servePlaces (pre.length :: is)
                { s with worker := .greeting (pre ++ g :: gs) } =
                servePlaces is { t with worker := .greeting (pre ++
                  { g with verdict := some (t.compiled.fingerprint.accepts bytes) } :: gs) } := by
              intro is
              rw [servePlaces_cons, servePlace_of_serve hplace (serve?_worker _ _ htake),
                Worker.complete, modify_length]
            simp only
            split
            · rename_i hstop
              rw [Bool.and_eq_true] at hstop
              exact ⟨1, Nat.succ_le_succ (Nat.zero_le _), hserve [], fun _ =>
                ⟨heager ▸ hstop.1, _, List.mem_cons_self, hstop.2⟩⟩
            · obtain ⟨k, hk, hpass, hstop⟩ := hrest _ t heager
              refine ⟨k + 1, Nat.succ_le_succ hk, ?_, hstop⟩
              rw [List.range'_succ, hserve, hpass]
      · rw [if_neg hopen]
        rw [Greeting.want?, if_neg hopen] at hplace
        obtain ⟨k, hk, hpass, hstop⟩ := hrest g s rfl
        refine ⟨k + 1, Nat.succ_le_succ hk, ?_, hstop⟩
        rw [List.range'_succ, servePlaces_cons, servePlace_of_closed hplace, hpass]

/-! ## Engines between receives -/

theorem advance_worker (s : Session) (x : Worker) (stage : Stage) :
    ({ s with worker := x } : Session).advance stage = { s.advance stage with worker := x } := by
  rw [advance, advance]
  split <;> rfl

theorem conclude_worker (s : Session) (x : Worker) (result : Except SessionError Results) :
    ({ s with worker := x } : Session).conclude result = s.conclude result := by
  rw [conclude_eq, conclude_eq]
  rfl

theorem finish_worker (s : Session) (x : Worker) (result : EngineResult) :
    ({ s with worker := x } : Session).finish result = s.finish result := by
  have hverdict : ({ s with worker := x } : Session).verdict result = s.verdict result :=
    verdict_congr rfl rfl result
  rw [finish_eq, finish_eq, hverdict, conclude_worker]

theorem worker_finish (s : Session) (result : EngineResult) :
    (s.finish result).worker = .ended := by
  rw [finish_eq]
  rfl

theorem misaddressed_worker (s : Session) (x : Worker) (index : Nat) :
    ({ s with worker := x } : Session).misaddressed index =
      { s.misaddressed index with worker := x } := by
  rw [misaddressed, misaddressed, settle_eq, settle_eq]
  rfl

theorem openWaits_worker (x : Worker) : ∀ (rs : List Receive) (s : Session),
    openWaits rs { s with worker := x } =
      ((openWaits rs s).1, { (openWaits rs s).2 with worker := x })
  | [], _ => rfl
  | r :: rs, s => by
      have hpeer : ({ s with worker := x } : Session).isPeer r.peer = s.isPeer r.peer := rfl
      rw [openWaits, openWaits, hpeer]
      split
      · rw [openWaits_worker x rs s]
      · rw [misaddressed_worker, openWaits_worker x rs (s.misaddressed r.peer)]

/-- An engine goes its way whatever the worker did before. -/
theorem reach_worker (x : Worker) : ∀ (e : Engine) (s : Session),
    reach e { s with worker := x } = reach e s := by
  intro e
  induction e with
  | send peer channel bytes next ih =>
      intro s
      have hpeer : ({ s with worker := x } : Session).isPeer peer = s.isPeer peer := rfl
      have hsend : ({ s with worker := x } : Session).transmit peer (.engine channel) bytes =
          ({ (s.transmit peer (.engine channel) bytes).1 with worker := x },
            (s.transmit peer (.engine channel) bytes).2) := by
        rw [transmit_eq, transmit_eq]
      rw [reach, reach, hpeer, hsend]
      split
      · generalize s.transmit peer (.engine channel) bytes = sent
        obtain ⟨t, fault⟩ := sent
        cases fault with
        | none => exact ih none t
        | some text => exact t.finish_worker x _
      · rw [misaddressed_worker]
        exact ih _ _
  | receive requests next ih =>
      intro s
      rw [reach, reach, openWaits_worker]
  | note entry next ih => exact fun s => ih (s.record (.noted entry))
  | keep next ih => exact fun s => ih { s with kept := true }
  | finish result => exact fun s => s.finish_worker x result

end Session

end JointCircuit

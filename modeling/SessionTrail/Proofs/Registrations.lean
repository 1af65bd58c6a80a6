import SessionTrail.Proofs.Enrichers
import SessionTrail.Proofs.Silence

/-!
# Registrations

Each time a listener is attached to a session it is registered there, by a worker of its own, until it is
detached or the session stops. Operation by operation: which workers of a session come and go, what is
queued for all of them, and what each of them is handed.
-/
namespace SessionTrail

open Program World

/-! ## What a run shows of a session -/

/-- What a worker of a session was handed, and what became of it. -/
def told (ds : List Delivery) (id : SessionId) (v : Worker) : List (Event × Outcome HandlingError Unit) :=
  (ds.filter fun d => d.session = id ∧ d.worker = v).map fun d => (d.event, d.result)

theorem told_append (ds es : List Delivery) (id : SessionId) (v : Worker) :
    told (ds ++ es) id v = told ds id v ++ told es id v := by
  simp only [told, List.filter_append, List.map_append]

theorem told_eq_nil {ds : List Delivery} {id : SessionId} {v : Worker}
    (h : ∀ d ∈ ds, d.session = id → d.worker ≠ v) : told ds id v = [] := by
  rw [told, List.map_eq_nil_iff, List.filter_eq_nil_iff]
  intro d hd
  simpa using h d hd

/-- The events that were posted to a session with success. -/
def postedTo (ps : List Posting) (id : SessionId) : List Event :=
  (ps.filter (·.session = id)).map (·.event)

theorem postedTo_append (ps qs : List Posting) (id : SessionId) :
    postedTo (ps ++ qs) id = postedTo ps id ++ postedTo qs id := by
  simp only [postedTo, List.filter_append, List.map_append]

/-- The workers that a session has. -/
def Program.registered (s : Program) (id : SessionId) : List Worker :=
  ((s.session? id).map (·.workers)).getD []

theorem Program.registered_of_session? {s : Program} {id : SessionId} {x : Session}
    (hx : s.session? id = some x) : s.registered id = x.workers := by
  rw [registered, hx, Option.map_some, Option.getD_some]

/-- The workers that an operation brings a session: the one of a listener which it attaches there. -/
def Operation.added : Operation → World → SessionId → List Worker
  | .attach id' l, w, id =>
    if l ∈ w.listeners ∧ w.program.isReachable id' = true ∧
        ((Program.attach id' l).run w.program).1 = .done () ∧ id = id' then
      ((w.program.session? id).map (·.nextWorker l)).toList
    else []
  | _, _, _ => []

/-- The workers that an operation ends at a session: all, when it stops, and the first one of a listener
that is detached there. -/
def Operation.ended : Operation → World → SessionId → List Worker
  | .stop id', w, id =>
    if w.program.isReachable id' = true ∧ id = id' then w.program.registered id else []
  | .detach id' l, w, id =>
    if l ∈ w.listeners ∧ w.program.isReachable id' = true ∧
        ((Program.detach id' l).run w.program).1 = .done true ∧ id = id' then
      ((w.program.session? id).bind (·.workerOf? l.id)).toList
    else []
  | _, _, _ => []

/-! ## What an operation may do to a session -/

/-- What an operation makes of a session: which events its workers are handed and which is posted, which
workers come and which end. A worker that comes has an empty queue, and so has one that ends. -/
inductive Session.Step (x y : Session) : List Handled → List Event → List Worker → List Worker → Prop where
  | same (wiring_eq : y.wiring = x.wiring) : Step x y [] [] [] []
  | added (l : Listener) (running : x.stopped = false) (wiring_eq : y.wiring = (x.addWorker l).wiring) :
    Step x y [] [] [x.nextWorker l] []
  | tried (l : Listener) (fresh : ∀ v ∈ x.workers, v.listener.id ≠ l.id)
      (wiring_eq : y.wiring = (x.tryWorker l).wiring) : Step x y [] [] [] []
  | posted (e : Event) (running : x.stopped = false) (wiring_eq : y.wiring = (x.posted e).wiring) :
    Step x y [] [e] [] []
  | delivered {handled : List Handled} (delivers : x.Delivers y handled) : Step x y handled [] [] []
  | ended {z : Session} {handled : List Handled} {v : Worker} (delivers : x.Delivers z handled)
      (own : ∀ k ∈ handled, k.worker = v.number) (there : v ∈ x.workers)
      (empty : z.bus.queue v.subscription = []) (wiring_eq : y.wiring = (z.endWorker v).wiring) :
    Step x y handled [] [] [v]
  | stopped {z : Session} {handled : List Handled} (delivers : x.Delivers z handled)
      (empty : ∀ v ∈ x.workers, z.bus.queue v.subscription = []) (workers_eq : y.workers = [])
      (added_eq : y.added = x.added) (stopped_eq : y.stopped = true) : Step x y handled [] [] x.workers

namespace Session.Step

variable {x y : Session} {handled : List Handled} {es : List Event} {new old : List Worker}

theorem of_core_eq (h : y.core = x.core) : x.Step y [] [] [] [] := .same (wiring_of_core_eq h)

/-- No number is given to two workers. -/
theorem added_le (h : x.Step y handled es new old) : x.added ≤ y.added := by
  cases h with
  | same hw | posted _ _ hw => exact Nat.le_of_eq (wiring_iff.mp hw).2.1.symm
  | added _ _ hw | tried _ _ hw =>
    rw [(wiring_iff.mp hw).2.1]
    exact Nat.le_succ _
  | delivered hd => exact Nat.le_of_eq (congrArg Session.added hd.outline_eq.symm :)
  | ended hd _ _ _ hw =>
    rw [(wiring_iff.mp hw).2.1]
    exact Nat.le_of_eq (congrArg Session.added hd.outline_eq.symm :)
  | stopped _ _ _ ha => exact Nat.le_of_eq ha.symm

/-- A session has the workers that it had, but for those that have ended, and those that have come. -/
theorem workers_perm (h : x.Step y handled es new old) : (y.workers ++ old).Perm (x.workers ++ new) := by
  cases h with
  | same hw => rw [(wiring_iff.mp hw).1]
  | posted _ _ hw =>
    rw [(wiring_iff.mp hw).1]
    exact .refl _
  | added l _ hw => rw [(wiring_iff.mp hw).1, addWorker_workers, List.append_nil]
  | tried _ fresh hw => rw [(wiring_iff.mp hw).1, tryWorker_workers fresh]
  | delivered hd => rw [hd.workers_eq]
  | @ended _ _ v hd _ hv _ hw =>
    rw [(wiring_iff.mp hw).1, Session.endWorker, hd.workers_eq, List.append_nil]
    exact (List.perm_append_singleton v _).trans (List.perm_cons_erase hv).symm
  | stopped _ _ hw => rw [hw, List.nil_append, List.append_nil]

/-- A worker that has come has an empty queue, and a number that no worker had before. -/
theorem attends_new (h : x.Step y handled es new old) {v : Worker} (hv : v ∈ new) :
    v.number = x.added ∧ x.added < y.added ∧ y.Attends v (some []) := by
  cases h with
  | added l _ hw =>
    rw [List.mem_singleton.mp hv, (wiring_iff.mp hw).2.1]
    exact ⟨rfl, Nat.lt_succ_self _, (Attends.nextWorker x l).of_wiring_eq hw⟩
  | same | tried | posted | delivered | ended | stopped => cases hv

/-- A worker that ends is handed all that is queued for it, unless its listener crashes meanwhile. -/
theorem flushed (h : x.Step y handled es new old) (hx : x.Wired) {v : Worker} (hv : v ∈ old) :
    es = [] ∧ v ∉ y.workers ∧ ∃ queue', Hearing (x.bus.queues.get? v.subscription) []
      (handledBy v.number handled) queue' ∧ queue'.getD [] = [] := by
  cases h with
  | @ended z _ u hd _ hu hempty hw =>
    have hz := hd.wired hx
    have hworkers : y.workers = z.workers.erase v := by
      rw [List.mem_singleton.mp hv]
      exact (wiring_iff.mp hw).1
    refine ⟨rfl, hworkers ▸ hz.nodup.not_mem_erase, _, hd.hears v ?_, ?_⟩ <;> rw [List.mem_singleton.mp hv]
    · exact hu
    · exact hempty
  | stopped hd hempty hw => exact ⟨rfl, hw ▸ List.not_mem_nil, _, hd.hears v hv, hempty v hv⟩
  | same | added | tried | posted | delivered => cases hv

/-- A worker that does not end goes on from the queue that it had. -/
theorem attends (h : x.Step y handled es new old) (hx : x.Wired) {v : Worker}
    {queue : Option (List Event)} (ha : x.Attends v queue) (hv : v ∉ old) :
    ∃ queue', y.Attends v queue' ∧ Hearing queue es (handledBy v.number handled) queue' := by
  cases h with
  | same hw => exact ⟨queue, ha.of_wiring_eq hw, .refl _⟩
  | added l _ hw => exact ⟨queue, (ha.addWorker hx l).of_wiring_eq hw, .refl _⟩
  | tried l _ hw => exact ⟨queue, (ha.tryWorker hx l).of_wiring_eq hw, .refl _⟩
  | posted e hs hw =>
    obtain ⟨queue', hq, hears⟩ := ha.posted hx hs e
    exact ⟨queue', hq.of_wiring_eq hw, hears⟩
  | delivered hd => exact ha.delivers hd
  | @ended z _ u hd _ hu _ hw =>
    obtain ⟨queue', hq, hears⟩ := ha.delivers hd
    refine ⟨queue', (hq.endWorker (hd.wired hx) ?_ fun he => ?_).of_wiring_eq hw, hears⟩
    · rw [hd.workers_eq]
      exact hu
    · exact hv (he ▸ List.mem_singleton_self _)
  | stopped => exact absurd ha.there hv

end Session.Step

/-! ## Sessions, one by one -/

/-- From `s` to `t` each session takes a step: with what is delivered and posted, and with the workers that
come and that end there. A session that is new has no workers. -/
structure Program.StepsTo (s t : Program) (ds : List Delivery) (ps : List Posting)
    (new old : SessionId → List Worker) : Prop where
  kept : ∀ id x, s.session? id = some x → ∃ y handled, t.session? id = some y ∧
    x.Step y handled (postedTo ps id) (new id) (old id) ∧
      ∀ v ∈ x.workers, told ds id v = handledBy v.number handled
  fresh : ∀ id y, s.session? id = none → t.session? id = some y → y.workers = []

namespace Program.StepsTo

variable {s t : Program} {id : SessionId} {new : SessionId → List Worker}

theorem of_sessions {s' t' : Program} {ds : List Delivery} {ps : List Posting}
    {old : SessionId → List Worker} (h : StepsTo s t ds ps new old) (hs : s'.sessions = s.sessions)
    (ht : t'.sessions = t.sessions) : StepsTo s' t' ds ps new old := by
  have hsq : ∀ id, s'.session? id = s.session? id := fun id => congrArg (Table.get? · id) hs
  have htq : ∀ id, t'.session? id = t.session? id := fun id => congrArg (Table.get? · id) ht
  constructor
  · intro id x hx
    rw [htq]
    exact h.kept id x ((hsq id).symm.trans hx)
  · exact fun id y hn hy => h.fresh id y ((hsq id).symm.trans hn) ((htq id).symm.trans hy)

theorem of_quiet (hk : ∀ id, (t.session? id).isSome = (s.session? id).isSome)
    (h : ∀ id x y, s.session? id = some x → t.session? id = some y → x.Step y [] [] (new id) []) :
    StepsTo s t [] [] new fun _ => [] := by
  constructor
  · intro id x hx
    have hsome := hk id
    rw [hx] at hsome
    obtain ⟨y, hy⟩ := Option.isSome_iff_exists.mp hsome
    exact ⟨y, [], hy, h id x y hx hy, fun _ _ => rfl⟩
  · intro id y hn hy
    have hsome := hk id
    rw [hn, hy] at hsome
    cases hsome

theorem of_wiring_eq (h : t.sessions.map Session.wiring = s.sessions.map Session.wiring) :
    StepsTo s t [] [] (fun _ => []) fun _ => [] := by
  refine .of_quiet (isSome_session?_of_map_eq h) fun id x y hx hy => ?_
  obtain ⟨x', hx', hxy⟩ := session?_of_map_eq h hy
  rw [hx] at hx'
  cases hx'
  exact .same hxy.symm

theorem of_sessions_eq (h : t.sessions = s.sessions) :
    StepsTo s t [] [] (fun _ => []) fun _ => [] := of_wiring_eq (by rw [h])

theorem of_sessions_core_eq (h : t.sessions.map Session.core = s.sessions.map Session.core) :
    StepsTo s t [] [] (fun _ => []) fun _ => [] := by
  have hw := congrArg (Table.map Session.wiring) h
  simp only [Table.map, List.map_map] at hw
  exact of_wiring_eq (congrArg Table.mk (Table.mk.inj hw))

theorem of_core_eq (h : t.core = s.core) : StepsTo s t [] [] (fun _ => []) fun _ => [] :=
  of_sessions_core_eq (congrArg Program.sessions h :)

/-- One session changes, up to its core. -/
theorem of_modifySession {f : Session → Session} {workers : List Worker}
    (h : t.sessions.map Session.core = (s.modifySession id f).sessions.map Session.core)
    (hf : ∀ x y, s.session? id = some x → y.wiring = (f x).wiring → x.Step y [] [] workers []) :
    StepsTo s t [] [] (fun id' => if id' = id then workers else []) fun _ => [] := by
  refine .of_quiet (fun id' => (isSome_session?_of_map_eq h id').trans
    (isSome_session?_modifySession s id id' f)) fun id' x y hx hy => ?_
  obtain ⟨z, hz, hzy⟩ := session?_of_map_eq h hy
  obtain ⟨x', hx', ⟨he, rfl⟩ | ⟨hne, rfl⟩⟩ := modifySession_cases hz <;> rw [hx] at hx' <;> cases hx'
  · rw [if_pos he]
    exact hf x y (he ▸ hx) (Session.wiring_of_core_eq hzy.symm)
  · rw [if_neg hne]
    exact .of_core_eq hzy.symm

theorem of_addWorker {l : Listener} {x : Session} (hx : s.session? id = some x) (hs : x.stopped = false)
    (h : t.sessions.map Session.core = (s.modifySession id (·.addWorker l)).sessions.map Session.core) :
    StepsTo s t [] [] (fun id' => if id' = id then [x.nextWorker l] else []) fun _ => [] := by
  refine .of_modifySession h fun x' y hx' hw => ?_
  rw [hx] at hx'
  cases hx'
  exact .added l hs hw

theorem start (s : Program) (id : SessionId) (settings : Settings) (backend : Backend) (home : Home) :
    StepsTo s (s.start id settings backend home) [] [] (fun _ => []) fun _ => [] := by
  obtain he | ⟨hn, z, hw, _, _, _, he⟩ := start_cases s id settings backend home
  · rw [he]
    exact .of_sessions_eq rfl
  · rw [he]
    constructor
    · intro id' x hx
      have hne : id' ≠ id := fun heq => by
        rw [heq, hn] at hx
        cases hx
      exact ⟨x, [], (Table.get?_set_of_ne s.sessions z hne).trans hx, .same rfl, fun _ _ => rfl⟩
    · intro id' y hnone hy
      obtain ⟨_, rfl⟩ | ⟨_, hy⟩ := set_cases hy
      · exact hw
      · rw [hnone] at hy
        cases hy

theorem installs {l : Listener} {e : Enricher} {r : Outcome InstallFailure ProcessorId}
    (h : Installs id l e s r t) (hfresh : ∀ x, s.session? id = some x → ∀ v ∈ x.workers, v.listener.id ≠ l.id) :
    ∃ new, StepsTo s t [] [] new fun _ => [] := by
  cases h with
  | refused _ _ hc | lostAtFirst _ _ _ _ hc => exact ⟨_, .of_core_eq hc⟩
  | takenBack _ _ _ _ _ hc =>
    exact ⟨_, .of_modifySession (congrArg Program.sessions hc :) fun x y hx hw => .tried l (hfresh x hx) hw⟩
  | stuck _ _ _ hx hs hc | lostLater _ _ hx hs _ _ hc =>
    exact ⟨_, .of_addWorker hx hs (congrArg Program.sessions hc :)⟩
  | completed _ _ hx hs hc => exact ⟨_, .of_addWorker hx hs (congrArg Program.sessions hc :)⟩

theorem ensureInstalled {left : InstallerId → SessionId → Nat} (h : Sound left s) (g : InstallerId)
    (id : SessionId) : ∃ new, StepsTo s ((Program.ensureInstalled g id).run s).2 [] [] new fun _ => [] := by
  obtain ⟨hsess, _, hl, _⟩ := forgetGone_fields g s
  obtain ⟨r, _, hrun, _⟩ | ⟨i, r, u, _, _, hin, _, hrun, _⟩ :=
    ensureInstalled_cases g id s (h.listener_lt id)
  · rw [hrun]
    exact ⟨_, .of_sessions_eq hsess⟩
  · -- Before it installs, the session is reserved, which changes no session.
    rw [hrun]
    have hq : ∀ id', (reserved (Program.forgetGone g s).2 g id).session? id' = s.session? id' :=
      fun id' => congrArg (Table.get? · id') hsess
    obtain ⟨new, hu⟩ := installs hin fun x hx v hv he => by
      have hlt := h.listener_lt id x ((hq id).symm.trans hx) v hv
      rw [he] at hlt
      exact absurd hl (Nat.ne_of_lt hlt)
    exact ⟨new, hu.of_sessions hsess.symm rfl⟩

end Program.StepsTo

namespace World

variable {w : World} {id : SessionId}

/-- Deliveries at a session are what its workers handled. -/
theorem told_deliveries {x : Session} {h : List Handled} (hx : w.program.session? id = some x)
    (hw : x.Wired) (hk : ∀ k ∈ h, ∃ v ∈ x.workers, v.number = k.worker) {u : Worker} (hu : u ∈ x.workers) :
    told (w.deliveries id h) id u = handledBy u.number h := by
  induction h with
  | nil => rfl
  | cons k rest ih =>
    obtain ⟨v, hv, hn⟩ := hk k List.mem_cons_self
    have ih := ih fun k' hk' => hk k' (List.mem_cons_of_mem _ hk')
    rw [deliveries_cons hx hw hv hn]
    by_cases he : v = u
    · rw [told, List.filter_cons_of_pos (by simp [he]), List.map_cons, handledBy,
        List.filter_cons_of_pos (by simp [← hn, he]), List.map_cons]
      exact congrArg _ ih
    · have hne : k.worker ≠ u.number := fun hku => he (hw.number_inj hv hu (hn.trans hku))
      rw [told, List.filter_cons_of_neg (by simp [he]), handledBy, List.filter_cons_of_neg (by simp [hne])]
      exact ih

theorem told_deliveries_of_ne (w : World) {id' : SessionId} (h : List Handled) (v : Worker)
    (hne : id' ≠ id) : told (w.deliveries id h) id' v = [] := by
  refine told_eq_nil fun d hd he => ?_
  obtain ⟨k, _, hk⟩ := List.mem_filterMap.mp hd
  obtain ⟨u, _, rfl⟩ := Option.map_eq_some_iff.mp hk
  exact absurd he.symm hne

/-- Deliveries of a session, and what is done to it behind them. -/
theorem stepsTo_of_delivered {x : Session} {t u : Program} {h : List Handled} {old : SessionId → List Worker}
    (hw : w.program.Wired) (hx : w.program.session? id = some x) (hd : Delivered id w.program t h)
    (here : ∀ z, t.session? id = some z → x.Delivers z h →
      ∃ y, u.session? id = some y ∧ x.Step y h [] [] (old id))
    (others : ∀ id', id' ≠ id → u.session? id' = t.session? id' ∧ old id' = []) :
    StepsTo w.program u (w.deliveries id h) [] (fun _ => []) old := by
  constructor
  · intro id' z hz
    by_cases he : id' = id
    · subst he
      rw [hx] at hz
      cases hz
      obtain ⟨y, hy, hxy⟩ := hd.here x hx
      obtain ⟨y', hy', hstep⟩ := here y hy hxy
      exact ⟨y', h, hy', hstep, fun v hv => told_deliveries hx (hw id' x hx) hxy.known hv⟩
    · obtain ⟨hsame, hnone⟩ := others id' he
      have ho := hd.others id' he
      rw [hz, Option.map_some, Option.map_eq_some_iff] at ho
      obtain ⟨y, hy, hyz⟩ := ho
      refine ⟨y, [], hsame.trans hy, ?_, fun v _ => told_deliveries_of_ne w h v he⟩
      rw [hnone]
      exact .of_core_eq hyz
  · intro id' y hn hy
    have hne : id' ≠ id := fun he => by
      rw [he, hx] at hn
      cases hn
    have ho := hd.others id' hne
    rw [hn, ← (others id' hne).1, hy] at ho
    cases ho

/-! ## Operations -/

theorem stepsTo_post (w : World) (id : SessionId) (e : Event) :
    StepsTo w.program ((Operation.post id e).next w).program [] ((Operation.post id e).postings w)
      (fun _ => []) fun _ => [] := by
  simp only [Operation.next, Operation.postings, through, update]
  cases hr : w.program.isReachable id with
  | false =>
    simp only [Bool.false_eq_true, if_false]
    exact .of_sessions_eq rfl
  | true =>
    obtain ⟨x, hx, _⟩ := isReachable_iff.mp hr
    have hp : (Program.post id e).run w.program = (onSession id (Session.post e)).run w.program := rfl
    cases hs : x.stopped with
    | true =>
      rw [hp, run_onSession hx, Session.run_post_of_stopped e hs]
      simp only [hx, if_true]
      exact .of_wiring_eq (Table.map_set_of_get? hx rfl)
    | false =>
      rw [hp, run_onSession hx, Session.run_post_of_running e hs]
      simp only [hx, if_true]
      constructor
      · intro id' z hz
        by_cases he : id' = id
        · rw [he, hx] at hz
          cases hz
          have hset : (w.program.sessions.set id (x.posted e)).get? id' = some (x.posted e) := by
            rw [he]
            exact Table.get?_set_self ..
          have hps : postedTo [⟨id, e, x.workers⟩] id' = [e] := by simp [postedTo, he]
          rw [hps]
          exact ⟨x.posted e, [], hset, .posted e hs rfl, fun _ _ => rfl⟩
        · have hps : postedTo [⟨id, e, x.workers⟩] id' = [] := by simp [postedTo, Ne.symm he]
          rw [hps]
          exact ⟨z, [], (Table.get?_set_of_ne _ _ he).trans hz, .same rfl, fun _ _ => rfl⟩
      · intro id' y hn hy
        obtain ⟨he, _⟩ | ⟨_, hy⟩ := set_cases hy
        · rw [he, hx] at hn
          cases hn
        · rw [hn] at hy
          cases hy

theorem stepsTo_turn (hw : w.program.Wired) (id : SessionId) (number : Nat) :
    StepsTo w.program ((Operation.turn id number).next w).program ((Operation.turn id number).deliveries w) []
      (fun _ => []) fun _ => [] := by
  obtain ⟨hn, hd⟩ | ⟨x, t, h, hx, hdel, hn, hd⟩ := turn_cases w id number <;> rw [hn, hd]
  · exact .of_sessions_eq rfl
  · exact stepsTo_of_delivered hw hx (hdel (hw id x hx)) (fun y hy hxy => ⟨y, hy, .delivered hxy⟩)
      fun _ _ => ⟨rfl, rfl⟩

theorem stepsTo_attach (w : World) (id : SessionId) (l : Listener) :
    StepsTo w.program ((Operation.attach id l).next w).program [] [] ((Operation.attach id l).added w)
      fun _ => [] := by
  by_cases hl : l ∈ w.listeners
  · cases hr : w.program.isReachable id with
    | false =>
      have hnone : (Operation.attach id l).added w = fun _ => [] := by
        funext id'
        simp only [Operation.added, hr, Bool.false_eq_true, false_and, and_false, if_false]
      simp only [hnone, Operation.next, hl, if_true, through, hr, Bool.false_eq_true, if_false]
      exact .of_sessions_eq rfl
    | true =>
      simp only [Operation.next, hl, if_true, through, hr, update]
      obtain ⟨x, t, hx, hs, _, ha, ht⟩ | ⟨e, t, ha, ht⟩ | ⟨x, t, _, _, ha, ht⟩ := attach_ends id l w.program
      · have hadded : (Operation.attach id l).added w =
            fun id' => if id' = id then [x.nextWorker l] else [] := by
          funext id'
          simp only [Operation.added, hl, hr, ha, true_and]
          split
          · rename_i he
            rw [he, hx]
            rfl
          · rfl
        rw [ha, hadded]
        exact .of_addWorker hx hs (congrArg Program.sessions ht :)
      all_goals
        have hnone : (Operation.attach id l).added w = fun _ => [] := by
          funext id'
          simp only [Operation.added, ha, reduceCtorEq, false_and, and_false, if_false]
        rw [ha, hnone]
        exact .of_core_eq ht
  · have hnone : (Operation.attach id l).added w = fun _ => [] := by
      funext id'
      simp only [Operation.added, hl, false_and, if_false]
    simp only [hnone, Operation.next, hl, if_false]
    exact .of_sessions_eq rfl

theorem stepsTo_stop (hw : w.program.Wired) (id : SessionId) :
    StepsTo w.program ((Operation.stop id).next w).program ((Operation.stop id).deliveries w) []
      (fun _ => []) ((Operation.stop id).ended w) := by
  obtain ⟨hn, hd, hr⟩ | ⟨x, t, h, hx, hr, hdel, hn, hd⟩ := stop_cases w id
  · have hnone : (Operation.stop id).ended w = fun _ => [] := by
      funext id'
      simp only [Operation.ended, hr, Bool.false_eq_true, false_and, if_false]
    rw [hn, hd, hnone]
    exact .of_sessions_eq rfl
  · rw [hn, hd]
    obtain ⟨hdel, hempty⟩ := hdel (hw id x hx)
    refine stepsTo_of_delivered hw hx hdel (fun z hz hxz => ?_) fun id' hne => ⟨?_, ?_⟩
    · obtain ⟨y, hy, hyw, hya, _, hys⟩ := session?_emptied hz
      have hall : (Operation.stop id).ended w id = x.workers := by
        simp only [Operation.ended, hr, and_self, if_true, registered_of_session? hx]
      rw [hall]
      refine ⟨y, hy, .stopped hxz (fun v hv => hempty z hz v (hxz.workers_eq ▸ hv)) hyw ?_ hys⟩
      exact hya.trans (congrArg Session.added hxz.outline_eq :)
    · exact session?_emptied_of_ne t hne
    · simp only [Operation.ended, hne, and_false, if_false]

theorem stepsTo_detach (hw : w.program.Wired) (id : SessionId) (l : Listener) :
    StepsTo w.program ((Operation.detach id l).next w).program ((Operation.detach id l).deliveries w) []
      (fun _ => []) ((Operation.detach id l).ended w) := by
  obtain ⟨hn, hd, hno⟩ | ⟨x, v, t, h, hx, ⟨hl, hr, hv⟩, ha, hdel, hn, hd, hown⟩ := detach_cases w id l
  · have hnone : (Operation.detach id l).ended w = fun _ => [] := by
      funext id'
      exact if_neg fun hc => hno ⟨hc.1, hc.2.1⟩ hc.2.2.1
    rw [hd, hnone]
    exact .of_core_eq hn
  · rw [hn, hd]
    obtain ⟨hdel, hempty⟩ := hdel (hw id x hx)
    refine stepsTo_of_delivered hw hx hdel (fun z hz hxz => ?_) fun id' hne => ⟨?_, ?_⟩
    · have hone : (Operation.detach id l).ended w id = [v] := by
        simp only [Operation.ended, hl, hr, ha, and_self, if_true, hx, Option.bind_some, hv,
          Option.toList_some]
      rw [hone]
      refine ⟨z.endWorker v, ?_, .ended hxz hown (List.mem_of_find?_eq_some hv) (hempty z hz).2 rfl⟩
      rw [session?_modifySession, if_pos rfl, hz, Option.map_some]
    · rw [session?_modifySession, if_neg hne]
    · simp only [Operation.ended, hne, and_false, if_false]

variable {left : InstallerId → SessionId → Nat}

/-- Every operation takes each session a step on. One that has nothing to do with installers brings it no
workers but those of the listeners that are attached. -/
theorem stepsTo_next (h : w.Sound left) (hw : w.program.Wired) (o : Operation) :
    ∃ new, StepsTo w.program (o.next w).program (o.deliveries w) (o.postings w) new (o.ended w) ∧
      (o.isIdle = true → new = o.added w) := by
  cases o with
  | post id e => exact ⟨_, stepsTo_post w id e, fun _ => rfl⟩
  | turn id number => exact ⟨_, stepsTo_turn hw id number, fun _ => rfl⟩
  | attach id l => exact ⟨_, stepsTo_attach w id l, fun _ => rfl⟩
  | stop id => exact ⟨_, stepsTo_stop hw id, fun _ => rfl⟩
  | detach id l => exact ⟨_, stepsTo_detach hw id l, fun _ => rfl⟩
  | start id settings backend detached => exact ⟨_, .start _ id settings backend _, fun _ => rfl⟩
  | release id => exact ⟨_, .of_wiring_eq (Table.map_modify _ _ fun _ => rfl), fun _ => rfl⟩
  | setBackend id backend => exact ⟨_, .of_wiring_eq (Table.map_modify _ _ fun _ => rfl), fun _ => rfl⟩
  | read id a =>
    exact ⟨_, through_preserves (P := fun t => StepsTo w.program t [] [] (fun _ => []) fun _ => [])
      (.of_sessions_eq rfl) (.of_core_eq (onSession_keeps_core id (Session.read_keeps_core a) _)), fun _ => rfl⟩
  | write id key value =>
    exact ⟨_, through_preserves (P := fun t => StepsTo w.program t [] [] (fun _ => []) fun _ => [])
      (.of_sessions_eq rfl) (.of_core_eq (onSession_keeps_core id (Session.write_keeps_core key value) _)),
      fun _ => rfl⟩
  | makeActive id =>
    exact ⟨_, through_preserves (P := fun t => StepsTo w.program t [] [] (fun _ => []) fun _ => [])
      (.of_sessions_eq rfl) (.of_sessions_eq rfl), fun _ => rfl⟩
  | clearActive id =>
    refine ⟨_, .of_sessions_eq ?_, fun _ => rfl⟩
    simp only [Operation.next, update, clearActive]
    split <;> rfl
  | submit report hint =>
    exact ⟨_, .of_sessions_core_eq (congrArg Program.sessions (submit_thins report hint w.program).body_eq :),
      fun _ => rfl⟩
  | ensureInstalled g id =>
    obtain ⟨new, hnew⟩ : ∃ new, StepsTo w.program ((Operation.ensureInstalled g id).next w).program [] [] new
        fun _ => [] := ensureInstalled_preserves
      (P := fun t => ∃ new, StepsTo w.program t [] [] new fun _ => []) g id ⟨_, .of_sessions_eq rfl⟩
      (StepsTo.ensureInstalled h.program g id)
    exact ⟨new, hnew, fun ho => by cases ho⟩
  | forgetGone g =>
    exact ⟨_, forgetGone_preserves (P := fun t => StepsTo w.program t [] [] (fun _ => []) fun _ => []) g
      (.of_sessions_eq rfl) (.of_sessions_eq (forgetGone_fields g _).1), fun ho => by cases ho⟩
  | setUp i =>
    obtain ⟨new, hnew⟩ : ∃ new, StepsTo w.program ((Operation.setUp i).next w).program [] [] new
        fun _ => [] := by
      refine setUp_preserves (P := fun t => ∃ new, StepsTo w.program t [] [] new fun _ => []) w i
        ⟨_, .of_sessions_eq rfl⟩ (fun _ => ⟨_, .of_sessions_eq rfl⟩) (fun config id _ => ?_)
        fun _ _ ht => ht.imp fun _ ht => ht.of_sessions rfl rfl
      obtain ⟨new, hnew⟩ := StepsTo.ensureInstalled (h.program.newInstaller config)
        (w.program.newInstaller config).1 id
      exact ⟨new, hnew.of_sessions rfl rfl⟩
    exact ⟨new, hnew, fun ho => by cases ho⟩
  | newInstaller | newIntegration => exact ⟨_, .of_sessions_eq rfl, fun ho => by cases ho⟩
  | tick | newListener | enable | disable | leave | clearCrumbs | register | unregister =>
    exact ⟨_, .of_sessions_eq rfl, fun _ => rfl⟩

end World

end SessionTrail

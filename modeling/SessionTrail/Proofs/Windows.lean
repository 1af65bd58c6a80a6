import SessionTrail.Proofs.Between
import SessionTrail.Proofs.Refreshes
import SessionTrail.Proofs.Registrations

/-!
# The window of a registration

A listener that is registered with a session is handed what is posted there until the registration ends, in
the order of the postings and each event once. A registration ends when its listener is detached, if it is
the oldest one of that listener, or when the session stops; before it ends, its worker takes all that is
queued.
-/
namespace SessionTrail

open Program World

theorem erase_eq_eraseP_of_find? {α : Type} [DecidableEq α] {p : α → Bool} {l : List α} {a : α}
    (h : l.find? p = some a) : l.erase a = l.eraseP p := by
  obtain ⟨hp, first, rest, rfl, hfirst⟩ := List.find?_eq_some_iff_append.mp h
  have hno : a ∉ first := fun hm => by simpa [hp] using hfirst a hm
  rw [List.erase_append_right _ hno, List.erase_cons_head,
    List.eraseP_append_right _ fun b hb => by simpa using hfirst b hb, List.eraseP_cons_of_pos hp]

theorem Program.registered_of_core_eq {s t : Program} (h : t.core = s.core) (id : SessionId) :
    t.registered id = s.registered id := by
  have hs : (t.session? id).map Session.core = (s.session? id).map Session.core := by
    rw [← session?_core, h, session?_core]
  have hw := congrArg (Option.map Session.workers) hs
  rw [Option.map_map, Option.map_map] at hw
  exact congrArg (Option.getD · []) hw

/-- The events that are queued for a worker of a session. -/
def Program.queued (s : Program) (id : SessionId) (v : Worker) : List Event :=
  ((s.session? id).map (·.bus.queue v.subscription)).getD []

/-- A worker of a session gets its events from a queue. -/
def Program.Attends (s : Program) (id : SessionId) (v : Worker) (queue : Option (List Event)) : Prop :=
  ∃ x, s.session? id = some x ∧ x.Attends v queue

/-- A worker has ended at a session, which gives no other worker its number. -/
def Program.Retired (s : Program) (id : SessionId) (v : Worker) : Prop :=
  ∃ x, s.session? id = some x ∧ v ∉ x.workers ∧ v.number < x.added

namespace World

variable {w : World} {left : InstallerId → SessionId → Nat} {id : SessionId} {v : Worker}

/-! ## One step of a registration -/

theorem told_of_absent (hv : v ∉ w.program.registered id) (o : Operation) :
    told (o.deliveries w) id v = [] := by
  refine told_eq_nil fun d hd he hdv => hv ?_
  obtain ⟨x, hx, hm⟩ := worker_of_delivery hd
  rw [he] at hx
  rw [registered_of_session? hx, ← hdv]
  exact hm

/-- A worker that comes is the next one of its session, and attends to an empty queue. -/
theorem attends_of_new (h : w.Sound left) (hw : w.program.Wired) {o : Operation}
    (hno : v ∉ w.program.registered id) (hyes : v ∈ (o.next w).program.registered id) :
    (∃ x, w.program.session? id = some x ∧ v.number = x.added) ∧ (o.next w).program.Attends id v (some []) := by
  obtain ⟨new, hsteps, _⟩ := stepsTo_next h hw o
  cases hx : w.program.session? id with
  | none =>
    cases hy : (o.next w).program.session? id with
    | none =>
      rw [registered, hy] at hyes
      cases hyes
    | some y =>
      rw [registered_of_session? hy, hsteps.fresh id y hx hy] at hyes
      cases hyes
  | some x =>
    obtain ⟨y, k, hy, hstep, _⟩ := hsteps.kept id x hx
    rw [registered_of_session? hx] at hno
    rw [registered_of_session? hy] at hyes
    have hm : v ∈ x.workers ++ new id := hstep.workers_perm.mem_iff.mp (List.mem_append_left _ hyes)
    obtain ⟨hnumber, _, ha⟩ := hstep.attends_new ((List.mem_append.mp hm).resolve_left hno)
    exact ⟨⟨x, rfl, hnumber⟩, y, hy, ha⟩

theorem retired_next (h : w.Sound left) (hw : w.program.Wired) (o : Operation)
    (hr : w.program.Retired id v) : (o.next w).program.Retired id v := by
  obtain ⟨x, hx, hno, hlt⟩ := hr
  obtain ⟨new, hsteps, _⟩ := stepsTo_next h hw o
  obtain ⟨y, k, hy, hstep, _⟩ := hsteps.kept id x hx
  refine ⟨y, hy, fun hyes => ?_, Nat.lt_of_lt_of_le hlt hstep.added_le⟩
  have hm : v ∈ x.workers ++ new id := hstep.workers_perm.mem_iff.mp (List.mem_append_left _ hyes)
  have hnumber := (hstep.attends_new ((List.mem_append.mp hm).resolve_left hno)).1
  exact absurd hnumber (Nat.ne_of_lt hlt)

/-- In one step a worker goes on from the queue that it had, or it takes all of it and ends. -/
theorem attends_next (h : w.Sound left) (hw : w.program.Wired) (o : Operation)
    {queue : Option (List Event)} (ha : w.program.Attends id v queue) :
    ∃ queue', Hearing queue (postedTo (o.postings w) id) (told (o.deliveries w) id v) queue' ∧
      (v ∉ o.ended w id ∧ (o.next w).program.Attends id v queue' ∨
        v ∈ o.ended w id ∧ postedTo (o.postings w) id = [] ∧ (o.next w).program.Retired id v ∧
          queue'.getD [] = []) := by
  obtain ⟨x, hx, ha⟩ := ha
  obtain ⟨new, hsteps, _⟩ := stepsTo_next h hw o
  obtain ⟨y, k, hy, hstep, htold⟩ := hsteps.kept id x hx
  rw [htold v ha.there]
  by_cases hv : v ∈ o.ended w id
  · obtain ⟨hnone, hgone, queue', hears, hempty⟩ := hstep.flushed (hw id x hx) hv
    rw [hnone, ← ha.queued]
    refine ⟨queue', hears, .inr ⟨hv, rfl, ⟨y, hy, hgone, ?_⟩, hempty⟩⟩
    exact Nat.lt_of_lt_of_le (hw id x hx |>.bounded v ha.there).1 hstep.added_le
  · obtain ⟨queue', hq, hears⟩ := hstep.attends (hw id x hx) ha hv
    exact ⟨queue', hears, .inl ⟨hv, y, hy, hq⟩⟩

/-! ## Runs -/

/-- A worker that has ended is handed nothing any more. -/
theorem retired_perform (h : w.Sound left) (hw : w.program.Wired) (ops : List Operation)
    (hr : w.program.Retired id v) :
    told (along Operation.deliveries ops w) id v = [] ∧ (perform ops w).program.Retired id v := by
  induction ops generalizing w left with
  | nil => exact ⟨rfl, hr⟩
  | cons o rest ih =>
    have hno : v ∉ w.program.registered id := by
      obtain ⟨x, hx, hno, _⟩ := hr
      rw [registered_of_session? hx]
      exact hno
    obtain ⟨hrest, hend⟩ := ih (h.next o) ((mails_next h o).wired hw) (retired_next h hw o hr)
    rw [along, told_append, told_of_absent hno o, hrest]
    exact ⟨rfl, hend⟩

theorem wired_perform (h : w.Sound left) (hw : w.program.Wired) (ops : List Operation) :
    (perform ops w).program.Wired := by
  induction ops generalizing w left with
  | nil => exact hw
  | cons o rest ih => exact ih (h.next o) ((mails_next h o).wired hw)

theorem added_le_perform (h : w.Sound left) (hw : w.program.Wired) (ops : List Operation) {x : Session}
    (hx : w.program.session? id = some x) :
    ∃ y, (perform ops w).program.session? id = some y ∧ x.added ≤ y.added := by
  induction ops generalizing w left x with
  | nil => exact ⟨x, hx, Nat.le_refl _⟩
  | cons o rest ih =>
    obtain ⟨new, hsteps, _⟩ := stepsTo_next h hw o
    obtain ⟨y, k, hy, hstep, _⟩ := hsteps.kept id x hx
    obtain ⟨z, hz, hle⟩ := ih (h.next o) ((mails_next h o).wired hw) hy
    exact ⟨z, hz, Nat.le_trans hstep.added_le hle⟩

/-- A worker is handed nothing before it comes. -/
theorem told_before (h : w.Sound left) (hw : w.program.Wired) {ops : List Operation} {y : Session}
    (hy : (perform ops w).program.session? id = some y) (hv : y.added ≤ v.number) :
    told (along Operation.deliveries ops w) id v = [] := by
  refine told_eq_nil fun d hd he hdv => ?_
  obtain ⟨first, o, rest, rfl, ho⟩ := mem_along hd
  obtain ⟨x, hx, hm⟩ := worker_of_delivery ho
  rw [he] at hx
  rw [hdv] at hm
  have hs := h.perform first
  have hwired := wired_perform h hw first
  obtain ⟨y', hy', hle⟩ := added_le_perform hs hwired (o :: rest) hx
  rw [perform_append, hy'] at hy
  cases hy
  have hlt := (hwired id x hx).bounded v hm
  omega

/-- A worker goes on from the queue that it had through a whole run, or up to an operation that ends it. -/
theorem attends_perform (h : w.Sound left) (hw : w.program.Wired) (ops : List Operation)
    {queue : Option (List Event)} (ha : w.program.Attends id v queue) :
    (∃ queue', (perform ops w).program.Attends id v queue' ∧
      v ∉ along (fun o w => o.ended w id) ops w ∧
      Hearing queue (postedTo (along Operation.postings ops w) id)
        (told (along Operation.deliveries ops w) id v) queue') ∨
    ∃ first o rest queue', ops = first ++ o :: rest ∧ v ∈ o.ended (perform first w) id ∧
      (perform ops w).program.Retired id v ∧
      Hearing queue (postedTo (along Operation.postings first w) id)
        (told (along Operation.deliveries ops w) id v) queue' ∧ queue'.getD [] = [] := by
  induction ops generalizing w left queue with
  | nil => exact .inl ⟨queue, ha, List.not_mem_nil, .refl _⟩
  | cons o rest ih =>
    have hwo := (mails_next h o).wired hw
    obtain ⟨between, hfirst, ⟨hno, hgoes⟩ | ⟨hends, hnone, hgone, hempty⟩⟩ := attends_next h hw o ha
    · simp only [along, perform, told_append, postedTo_append]
      obtain ⟨after, hafter, hkept, hrest⟩ | ⟨first, p, more, after, rfl, hends, hgone, hrest, hempty⟩ :=
        ih (h.next o) hwo hgoes
      · refine .inl ⟨after, hafter, ?_, hfirst.trans hrest⟩
        exact fun hm => (List.mem_append.mp hm).elim hno hkept
      · refine .inr ⟨o :: first, p, more, after, rfl, hends, hgone, ?_, hempty⟩
        rw [along, postedTo_append]
        exact hfirst.trans hrest
    · obtain ⟨hsilent, hend⟩ := retired_perform (h.next o) hwo rest hgone
      refine .inr ⟨[], o, rest, between, rfl, hends, hend, ?_, hempty⟩
      rw [hnone] at hfirst
      simp only [along, told_append, hsilent, List.append_nil]
      exact hfirst

theorem registered_perm_next (h : w.Sound left) (hw : w.program.Wired) {o : Operation}
    (ho : o.isIdle = true) (id : SessionId) :
    ((o.next w).program.registered id ++ o.ended w id).Perm (w.program.registered id ++ o.added w id) := by
  obtain ⟨new, hsteps, hnew⟩ := stepsTo_next h hw o
  cases hx : w.program.session? id with
  | some x =>
    obtain ⟨y, k, hy, hstep, _⟩ := hsteps.kept id x hx
    rw [registered_of_session? hx, registered_of_session? hy, ← hnew ho]
    exact hstep.workers_perm
  | none =>
    have hbefore : w.program.registered id = [] := by
      rw [registered, hx]
      rfl
    have hadded : o.added w id = [] := by
      cases o <;> simp [Operation.added, hx]
    have hended : o.ended w id = [] := by
      cases o <;> simp [Operation.ended, hx, hbefore]
    have hafter : (o.next w).program.registered id = [] := by
      cases hy : (o.next w).program.session? id with
      | none =>
        rw [registered, hy]
        rfl
      | some y => rw [registered_of_session? hy, hsteps.fresh id y hx hy]
    rw [hbefore, hadded, hended, hafter]

/-- In a run without installers, the workers that a session has and those that have ended are those that it
had and those that have come. -/
theorem registered_perm_perform (h : w.Sound left) (hw : w.program.Wired) {ops : List Operation}
    (hidle : ∀ o ∈ ops, o.isIdle = true) (id : SessionId) :
    ((perform ops w).program.registered id ++ along (fun o w => o.ended w id) ops w).Perm
      (w.program.registered id ++ along (fun o w => o.added w id) ops w) := by
  induction ops generalizing w left with
  | nil => exact .refl _
  | cons o rest ih =>
    have hfirst := registered_perm_next h hw (hidle o List.mem_cons_self) id
    have hrest := ih (h.next o) ((mails_next h o).wired hw) fun p hp => hidle p (List.mem_cons_of_mem _ hp)
    rw [List.perm_iff_count] at hfirst hrest ⊢
    intro v
    have hf := hfirst v
    have hr := hrest v
    simp only [along, perform, List.count_append] at hf hr ⊢
    omega

/-- The turn of a worker hands it the event that has waited longest for it. -/
theorem told_turn (hw : w.program.Wired) {x : Session} (hx : w.program.session? id = some x)
    (hv : v ∈ x.workers) {e : Event} {rest : List Event} (hq : x.bus.queue v.subscription = e :: rest) :
    ∃ r, told ((Operation.turn id v.number).deliveries w) id v = [(e, r)] := by
  have hwx := hw id x hx
  obtain ⟨hd, _⟩ := turn_delivered hx hwx hv
  obtain ⟨y, _, hxy⟩ := hd.here x hx
  have htold := told_deliveries hx hwx hxy.known hv
  simp only [Operation.deliveries, worker?_of_wired hx hwx hv]
  rw [htold, turn_of_queue hx hq]
  exact ⟨_, handledBy_singleton_self v.number e _⟩

/-! ## What the calls of a session come to -/

/-- What comes of a run for a worker that is there before it, and what it has been handed then: as long as it
has not ended, all that was posted meanwhile but for what is queued; else, all that was posted before the
operation that ended it. -/
inductive Window (w : World) (id : SessionId) (v : Worker) (during : List Operation) (heard : List Event) :
    Prop where
  | lasts (there : v ∈ (perform during w).program.registered id)
      (kept : v ∉ along (fun o w => o.ended w id) during w)
      (heard_eq : heard ++ (perform during w).program.queued id v =
        postedTo (along Operation.postings during w) id) : Window w id v during heard
  | ended (first rest : List Operation) (o : Operation) (split : during = first ++ o :: rest)
      (ends : v ∈ o.ended (perform first w) id) (gone : v ∉ (perform during w).program.registered id)
      (heard_eq : heard = postedTo (along Operation.postings first w) id) : Window w id v during heard

theorem window_of_attends (h : w.Sound left) (hw : w.program.Wired) (ha : w.program.Attends id v (some []))
    {during : List Operation}
    (hr : ∀ k ∈ told (along Operation.deliveries during w) id v, k.2 ≠ .crashed) :
    Window w id v during ((told (along Operation.deliveries during w) id v).map Prod.fst) := by
  obtain ⟨queue, ⟨x, hx, hq⟩, hkept, hears⟩ | ⟨first, o, rest, queue, hsplit, hends, hgone, hears, hempty⟩ :=
    attends_perform h hw during ha
  · refine .lasts ?_ hkept ?_
    · rw [registered_of_session? hx]
      exact hq.there
    · have hqueued : (perform during w).program.queued id v = queue.getD [] := by
        rw [queued, hx, ← hq.queued]
        rfl
      rw [hqueued]
      exact (hears.of_returned hr rfl).1
  · refine .ended first rest o hsplit hends ?_ ?_
    · obtain ⟨x, hx, hno, _⟩ := hgone
      rw [registered_of_session? hx]
      exact hno
    · have hall := (hears.of_returned hr rfl).1
      rw [hempty, List.append_nil] at hall
      exact hall

/-- What it comes to that a listener is to be attached to a session: if the call is served, it gets a new
worker, behind all others. -/
structure AttachesOne (w : World) (id : SessionId) (x : Session) (l : Listener) : Prop where
  answer : ((Program.attach id l).run w.program).1 = (x.troubleWith .attach).elim (.done ()) Trouble.outcome
  workers : ((Operation.attach id l).next w).program.registered id =
    x.workers ++ (Operation.attach id l).added w id
  added : (Operation.attach id l).added w id =
    if ((Program.attach id l).run w.program).1 = .done () then [x.nextWorker l] else []
  fresh : x.nextWorker l ∉ x.workers

theorem attachesOne (hw : w.program.Wired) {x : Session} {l : Listener} (hx : w.program.session? id = some x)
    (hl : l ∈ w.listeners) (hr : w.program.isReachable id = true) : AttachesOne w id x l := by
  constructor
  · have hrun : (Program.attach id l).run w.program = (onSession id (Session.attach l)).run w.program := rfl
    rw [hrun, run_onSession hx, Session.run_attach]
    cases x.troubleWith .attach <;> rfl
  · simp only [Operation.next, Operation.added, hl, hr, if_true, through, update, true_and]
    obtain ⟨x', t, hx', _, _, ha, ht⟩ | ⟨e, t, ha, ht⟩ | ⟨_, t, _, _, ha, ht⟩ := attach_ends id l w.program <;>
      rw [ha, registered_of_core_eq ht]
    · have hadded : (w.program.modifySession id (·.addWorker l)).session? id = some (x.addWorker l) := by
        rw [session?_modifySession, if_pos rfl, hx, Option.map_some]
      rw [registered_of_session? hadded, Session.addWorker_workers, hx]
      rfl
    · rw [registered_of_session? hx]
      exact (List.append_nil _).symm
    · rw [registered_of_session? hx]
      exact (List.append_nil _).symm
  · simp only [Operation.added, hl, hr, true_and, and_true, hx, Option.map_some, Option.toList_some]
  · exact fun hm => Nat.lt_irrefl _ ((hw id x hx).bounded _ hm).1

/-- What it comes to that a listener is to be detached from a session: if the call is served, the answer is
whether it has a worker there. The first one that it has, and no other, takes what is queued for it and ends;
nothing is done with the others. -/
structure DetachesOldest (w : World) (id : SessionId) (x : Session) (l : Listener) : Prop where
  answer : ((Program.detach id l).run w.program).1 = (x.backend.trouble x.history .detach).elim
    (.done (x.workers.any (·.listener.id = l.id))) Trouble.outcome
  workers : ((Operation.detach id l).next w).program.registered id =
    if ((Program.detach id l).run w.program).1 = .done true then
      x.workers.eraseP (·.listener.id = l.id)
    else x.workers
  flushed : ∀ v, ((Program.detach id l).run w.program).1 = .done true → x.workerOf? l.id = some v →
    (∀ k ∈ told ((Operation.detach id l).deliveries w) id v, k.2 ≠ .crashed) →
      (told ((Operation.detach id l).deliveries w) id v).map Prod.fst = x.bus.queue v.subscription
  spared : ∀ v ∈ ((Operation.detach id l).next w).program.registered id,
    told ((Operation.detach id l).deliveries w) id v = [] ∧
      ((Operation.detach id l).next w).program.queued id v = x.bus.queue v.subscription

theorem run_detach_answer {x : Session} (hx : w.program.session? id = some x) (l : Listener) :
    ((Program.detach id l).run w.program).1 = (x.backend.trouble x.history .detach).elim
      (.done (x.workers.any (·.listener.id = l.id))) Trouble.outcome := by
  rw [run_detach, run_onSession hx, Session.run_consult]
  rcases x.backend.trouble x.history .detach with _ | (e | _)
  · have hset : ({ w.program with sessions := w.program.sessions.set id (x.note .detach) } : Program).session? id =
        some (x.note .detach) := Table.get?_set_self ..
    have hany : x.workers.any (·.listener.id = l.id) = ((x.note .detach).workerOf? l.id).isSome :=
      List.isSome_find?.symm
    simp only [Option.elim_none, endWorkerOf, hset, Option.bind_some]
    rw [hany]
    cases (x.note .detach).workerOf? l.id <;> rfl
  · rfl
  · rfl

theorem detachesOldest (hw : w.program.Wired) {x : Session} {l : Listener}
    (hx : w.program.session? id = some x) (hl : l ∈ w.listeners) (hr : w.program.isReachable id = true) :
    DetachesOldest w id x l := by
  have hanswer := run_detach_answer hx l
  obtain ⟨hn, hd, hno⟩ | ⟨x', v, t, k, hx', ⟨_, _, hv⟩, ha, hdel, hn, hd, hown⟩ := detach_cases w id l
  · have hno := hno ⟨hl, hr⟩
    obtain ⟨y, hy, hyx⟩ := session?_of_map_eq (congrArg Program.sessions hn.symm :) hx
    have hw := Session.wiring_iff.mp (Session.wiring_of_core_eq hyx)
    refine ⟨hanswer, ?_, fun v hyes => absurd hyes hno, fun v _ => ⟨?_, ?_⟩⟩
    · rw [registered_of_core_eq hn, registered_of_session? hx, if_neg hno]
    · rw [hd]
      rfl
    · rw [queued, hy, Option.map_some, Option.getD_some, hw.2.2.1]
  · rw [hx] at hx'
    cases hx'
    obtain ⟨hdel, hthere⟩ := hdel (hw id x hx)
    obtain ⟨z, hz, hxz⟩ := hdel.here x hx
    have hwx := hw id x hx
    have hvx : v ∈ x.workers := List.mem_of_find?_eq_some hv
    have hafter : ((Operation.detach id l).next w).program.session? id = some (z.endWorker v) := by
      rw [hn, session?_modifySession, if_pos rfl, hz, Option.map_some]
    have hworkers : ((Operation.detach id l).next w).program.registered id = x.workers.erase v := by
      rw [registered_of_session? hafter, Session.endWorker, hxz.workers_eq]
    refine ⟨hanswer, ?_, fun v' _ hv' hr => ?_, fun u hu => ?_⟩
    · rw [hworkers, if_pos ha]
      exact erase_eq_eraseP_of_find? hv
    · rw [hv] at hv'
      cases hv'
      rw [hd, told_deliveries hx hwx hxz.known hvx] at hr ⊢
      exact hxz.drained hvx hr (hthere z hz).2
    · rw [hworkers] at hu
      have hux : u ∈ x.workers := List.mem_of_mem_erase hu
      have hne : u ≠ v := fun he => hwx.nodup.not_mem_erase (he ▸ hu)
      have hnone : handledBy u.number k = [] :=
        handledBy_of_own hown fun he => hne (hwx.number_inj hux hvx he.symm)
      rw [hd, told_deliveries hx hwx hxz.known hux, hnone]
      refine ⟨rfl, ?_⟩
      rw [queued, hafter, Option.map_some, Option.getD_some, Bus.queue,
        z.endWorker_get? fun he => hne (hwx.subscription_inj hux hvx he)]
      exact hxz.queue_eq hux hnone

/-- What it comes to that a session is stopped: its workers take all that is queued and end, and then it has
stopped. The active session, if it runs and its backend is sound, serves two writes for each refresh that this
gives rise to, also where it is the one that stops. -/
structure DrainsAndStops (w : World) (id : SessionId) (x : Session) : Prop where
  stopped : ∃ y, ((Operation.stop id).next w).program.session? id = some y ∧ y.workers = [] ∧ y.stopped = true
  flushed : ∀ v ∈ x.workers, (∀ k ∈ told ((Operation.stop id).deliveries w) id v, k.2 ≠ .crashed) →
    (told ((Operation.stop id).deliveries w) id v).map Prod.fst = x.bus.queue v.subscription
  refreshed : ∀ a z, w.program.active = some a → w.program.session? a = some z → z.backend = .sound →
    z.stopped = false → (∀ d ∈ (Operation.stop id).deliveries w, d.result ≠ .crashed) ∧
      ∃ y, ((Operation.stop id).next w).program.session? a = some y ∧
        y.writes = z.writes + 2 * ((Operation.stop id).deliveries w).countP Delivery.refreshes

theorem drainsAndStops (hw : w.program.Wired) {x : Session} (hx : w.program.session? id = some x)
    (hr : w.program.isReachable id = true) : DrainsAndStops w id x := by
  have hwx := hw id x hx
  obtain ⟨hn, hd⟩ := stop_of_reachable hr
  obtain ⟨hdel, hempty⟩ := flush_delivered hx hwx x.workers fun _ hv => hv
  rw [← settle_of_session? hx] at hdel hempty
  obtain ⟨z, hz, hxz⟩ := hdel.here x hx
  constructor
  · obtain ⟨y, hy, hworkers, _, _, hstopped⟩ := session?_emptied hz
    rw [hn]
    exact ⟨y, hy, hworkers, hstopped⟩
  · intro v hv hreturned
    have htold : told ((Operation.stop id).deliveries w) id v =
        handledBy v.number (settle id w.program).1 := by
      rw [hd]
      exact told_deliveries hx hwx hxz.known hv
    rw [htold] at hreturned ⊢
    exact hxz.drained hv hreturned (hempty z hz v hv)
  · intro a u ha hu hsound hruns
    obtain ⟨hreturned, y, hy, hwrites⟩ :=
      stop_refreshes ⟨ha, u, hu, hsound, hruns, rfl⟩ hx hwx
    rw [hn, hd]
    refine ⟨fun d hdm => ?_, y, hy, ?_⟩
    · obtain ⟨k, hk, _, hkd⟩ := mem_deliveries hdm
      exact hkd ▸ hreturned k hk
    · have hknown : ∀ k ∈ (Program.stop id w.program).1, ∃ v ∈ x.workers, v.number = k.worker := hxz.known
      rw [hwrites, countP_deliveries hx hwx hknown]

end World

/-- In every state that a run reaches, and for every session: each registration, by whatever operation it
comes, is handed exactly the events that are posted with success while it lasts, in the order of the postings
and each once, as long as its listener returns; its worker's turns hand it what still waits. In a run without
installers there are as many registrations as were made, less those that have ended. To attach a listener
makes one registration more, to detach one ends its oldest registration and leaves all others alone, and to
stop the session delivers what is queued for each of them before the session counts as stopped. -/
theorem registrations_hear_their_windows (now : Timestamp) (retention : Retention)
    (before : List Operation) (id : SessionId) :
    let w₀ := initial now retention
    let w := perform before w₀
    (∀ (o : Operation) (v : Worker) (during : List Operation),
      let heard := told (along Operation.deliveries (before ++ o :: during) w₀) id v
      v ∉ w.program.registered id → v ∈ (o.next w).program.registered id → (∀ k ∈ heard, k.2 ≠ .crashed) →
        Window (o.next w) id v during (heard.map Prod.fst)) ∧
    ∀ x, w.program.session? id = some x →
      (∀ v ∈ x.workers, ∀ e rest, x.bus.queue v.subscription = e :: rest →
        ∃ r, told ((Operation.turn id v.number).deliveries w) id v = [(e, r)]) ∧
      ((∀ o ∈ before, o.isIdle = true) →
        x.listenerCount + (along (fun o w => o.ended w id) before w₀).length =
          (along (fun o w => o.added w id) before w₀).length) ∧
      (w.program.isReachable id = true → DrainsAndStops w id x ∧
        ∀ l ∈ w.listeners, AttachesOne w id x l ∧ DetachesOldest w id x l) := by
  intro w₀ w
  have h₀ : w₀.Sound _ := sound_initial now retention
  have hw₀ : w₀.program.Wired := wired_initial now retention
  have h : w.Sound _ := h₀.perform before
  have hw : w.program.Wired := wired_perform h₀ hw₀ before
  refine ⟨?_, fun x hx => ⟨fun v hv e rest => told_turn hw hx hv, fun hidle => ?_, fun hreach => ?_⟩⟩
  · intro o v during heard hno hyes hr
    -- Nothing is handed to a worker before it comes.
    obtain ⟨⟨x, hx, hnumber⟩, ha⟩ := attends_of_new h hw hno hyes
    have hheard : heard = told (along Operation.deliveries during (o.next w)) id v := by
      have hsilent : told (along Operation.deliveries before w₀) id v = [] :=
        told_before h₀ hw₀ hx (Nat.le_of_eq hnumber.symm)
      simp only [heard, along_append, along, told_append, hsilent, List.nil_append]
      exact congrArg (· ++ _) (told_of_absent hno o)
    rw [hheard] at hr ⊢
    exact window_of_attends (h.next o) ((mails_next h o).wired hw) ha hr
  · have hlength := (registered_perm_perform h₀ hw₀ hidle id).length_eq
    rw [List.length_append, registered_of_session? hx] at hlength
    rw [Session.listenerCount, hlength]
    rfl
  · exact ⟨drainsAndStops hw hx hreach, fun l hl => ⟨attachesOne hw hx hl hreach, detachesOldest hw hx hl hreach⟩⟩

/-- A session with a listener that takes events down and one that leaves a trail; an event waits for both. -/
def overlapRun : List Operation :=
  [.start ⟨⟨0⟩⟩ (.standard none) .sound false, .newListener (.recorder {}), .newListener (.trail "app."),
    .attach ⟨⟨0⟩⟩ ⟨⟨0⟩, .recorder {}, none⟩, .attach ⟨⟨0⟩⟩ ⟨⟨1⟩, .trail "app.", none⟩,
    .post ⟨⟨0⟩⟩ (.jobStart ⟨1⟩ .epoch [])]

/-- What is done when the first listener has been attached a second time: it is detached once between two
postings, and the session stops before a third one. -/
def laterRun : List Operation :=
  [.post ⟨⟨0⟩⟩ (.jobStart ⟨2⟩ .epoch []), .turn ⟨⟨0⟩⟩ 2, .detach ⟨⟨0⟩⟩ ⟨⟨0⟩, .recorder {}, none⟩,
    .post ⟨⟨0⟩⟩ (.jobEnd ⟨2⟩ .epoch .succeeded), .stop ⟨⟨0⟩⟩, .post ⟨⟨0⟩⟩ (.jobStart ⟨3⟩ .epoch [])]

/-- The second registration hears the two events that are posted while it lasts; that the listener is detached
in between ends the first one. Were the session stopped at once instead, the event that waits for the trail
would still have the properties refreshed. -/
theorem second_registration_hears_its_window :
    let w₀ := initial .epoch .standard
    let w := perform overlapRun w₀
    let l : Listener := ⟨⟨0⟩, .recorder {}, none⟩
    let again : Worker := ⟨2, l, ⟨2⟩⟩
    let heard := told (along Operation.deliveries (overlapRun ++ .attach ⟨⟨0⟩⟩ l :: laterRun) w₀) ⟨⟨0⟩⟩ again
    heard.map Prod.fst = [.jobStart ⟨2⟩ .epoch [], .jobEnd ⟨2⟩ .epoch .succeeded] ∧
    Window ((Operation.attach ⟨⟨0⟩⟩ l).next w) ⟨⟨0⟩⟩ again laterRun (heard.map Prod.fst) ∧
    ∃ x, w.program.session? ⟨⟨0⟩⟩ = some x ∧ x.listenerCount = 2 ∧ AttachesOne w ⟨⟨0⟩⟩ x l ∧
      DetachesOldest w ⟨⟨0⟩⟩ x l ∧
      ∃ y, ((Operation.stop ⟨⟨0⟩⟩).next w).program.session? ⟨⟨0⟩⟩ = some y ∧ y.writes = x.writes + 2 := by
  intro w₀ w l again heard
  have hno : again ∉ w.program.registered ⟨⟨0⟩⟩ := by decide
  have hyes : again ∈ ((Operation.attach ⟨⟨0⟩⟩ l).next w).program.registered ⟨⟨0⟩⟩ := by decide
  have hreturned : ∀ k ∈ heard, k.2 ≠ .crashed := by decide
  have hheard : heard.map Prod.fst = [.jobStart ⟨2⟩ .epoch [], .jobEnd ⟨2⟩ .epoch .succeeded] := by decide
  have hidle : ∀ o ∈ overlapRun, o.isIdle = true := by decide
  have hended : along (fun o w => o.ended w ⟨⟨0⟩⟩) overlapRun w₀ = [] := by decide
  have hadded : (along (fun o w => o.added w ⟨⟨0⟩⟩) overlapRun w₀).length = 2 := by decide
  have hreach : w.program.isReachable ⟨⟨0⟩⟩ = true := by decide
  have hactive : w.program.active = some ⟨⟨0⟩⟩ := by decide
  have hl : l ∈ w.listeners := by decide
  have hrefreshes : ((Operation.stop ⟨⟨0⟩⟩).deliveries w).countP Delivery.refreshes = 1 := by decide
  obtain ⟨x, hx, _⟩ := isReachable_iff.mp hreach
  have hbackend : (w.program.session? ⟨⟨0⟩⟩).map (·.backend) = some .sound := rfl
  have hstopped : (w.program.session? ⟨⟨0⟩⟩).map (·.stopped) = some false := by decide
  rw [hx, Option.map_some, Option.some.injEq] at hbackend hstopped
  obtain ⟨hwindow, hcalls⟩ := registrations_hear_their_windows .epoch .standard overlapRun ⟨⟨0⟩⟩
  obtain ⟨_, hcount, hserved⟩ := hcalls x hx
  obtain ⟨hstop, hlisteners⟩ := hserved hreach
  obtain ⟨hattach, hdetach⟩ := hlisteners l hl
  have hc := hcount hidle
  rw [hended, hadded] at hc
  obtain ⟨_, y, hy, hwrites⟩ := hstop.refreshed ⟨⟨0⟩⟩ x hactive hx hbackend hstopped
  rw [hrefreshes] at hwrites
  exact ⟨hheard, hwindow _ again laterRun hno hyes hreturned, x, hx, hc, hattach, hdetach, y, hy, hwrites⟩

end SessionTrail

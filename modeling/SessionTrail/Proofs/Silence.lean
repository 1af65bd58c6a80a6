import SessionTrail.Proofs.Crash

/-!
# Listeners that fall silent

An installer's listener at a session is handed the events that were posted while it was attached, one after
another, whatever becomes of them, until it crashes; from then on it is handed nothing. That holds whatever
crashes elsewhere: of a listener's deliveries only its own crash takes some away.
-/
namespace SessionTrail

open Program World

namespace Session

/-- A worker of a session gets its events from a queue, which is served as long as the session runs; when
its listener has crashed, it has none any more. -/
structure Attends (x : Session) (v : Worker) (queue : Option (List Event)) : Prop where
  there : v ∈ x.workers
  queued : x.bus.queues.get? v.subscription = queue
  served : x.stopped = false → queue ≠ none → v.subscription ∈ x.bus.attached

namespace Attends

variable {x y : Session} {v u : Worker} {queue : Option (List Event)}

theorem of_wiring_eq (h : x.Attends v queue) (hw : y.wiring = x.wiring) : y.Attends v queue := by
  obtain ⟨workers, _, bus, stopped⟩ := wiring_iff.mp hw
  exact ⟨workers ▸ h.there, bus ▸ h.queued, bus ▸ stopped ▸ h.served⟩

theorem addWorker (h : x.Attends v queue) (hx : x.Wired) (l : Listener) :
    (x.addWorker l).Attends v queue := by
  refine ⟨List.mem_append_left _ h.there, ?_, fun hs hq => List.mem_append_left _ (h.served hs hq)⟩
  rw [x.addWorker_get? l (hx.bounded v h.there).2]
  exact h.queued

theorem nextWorker (x : Session) (l : Listener) : (x.addWorker l).Attends (x.nextWorker l) (some []) :=
  ⟨x.nextWorker_mem l, Table.get?_set_self .., fun _ _ => List.mem_append_right _ (List.mem_singleton_self _)⟩

/-- Another worker ends. -/
theorem endWorker (h : x.Attends v queue) (hx : x.Wired) (hu : u ∈ x.workers) (hne : v ≠ u) :
    (x.endWorker u).Attends v queue := by
  refine ⟨(List.mem_erase_of_ne hne).mpr h.there, ?_, h.served⟩
  rw [endWorker_get? _ fun he => hne (hx.subscription_inj h.there hu he)]
  exact h.queued

theorem tryWorker (h : x.Attends v queue) (hx : x.Wired) (l : Listener) :
    (x.tryWorker l).Attends v queue := by
  refine (h.addWorker hx l).endWorker (hx.addWorker l) (x.nextWorker_mem l) fun he => ?_
  have hlt := (hx.bounded v h.there).1
  rw [he] at hlt
  exact Nat.lt_irrefl _ hlt

/-- A running session is posted an event. -/
theorem posted (h : x.Attends v queue) (hx : x.Wired) (hs : x.stopped = false) (e : Event) :
    ∃ queue', (x.posted e).Attends v queue' ∧ Hearing queue [e] [] queue' := by
  have hafter := x.posted_get? hx e v.subscription
  rw [h.queued] at hafter
  cases queue with
  | none => exact ⟨none, ⟨h.there, hafter, fun _ hq => absurd rfl hq⟩, .gone⟩
  | some q =>
    have hat := h.served hs nofun
    have hlive : x.bus.isLive v.subscription = true := by
      rw [Bus.isLive_eq_isSome, h.queued]
      rfl
    rw [Option.map_some, if_pos hat] at hafter
    exact ⟨_, ⟨h.there, hafter, fun _ _ => List.mem_filter.mpr ⟨hat, hlive⟩⟩,
      @Hearing.heard q [e] (q ++ [e]) [] rfl fun _ hk => nomatch hk⟩

theorem delivers {handled : List Handled} (h : x.Attends v queue) (hd : x.Delivers y handled) :
    ∃ queue', y.Attends v queue' ∧ Hearing queue [] (handledBy v.number handled) queue' := by
  have hears := hd.hears v h.there
  rw [h.queued] at hears
  refine ⟨_, ⟨hd.workers_eq ▸ h.there, rfl, fun hs hq => ?_⟩, hears⟩
  have hstopped : y.stopped = x.stopped := (congrArg Session.stopped hd.outline_eq :)
  rw [hd.attached_eq]
  refine h.served (hstopped ▸ hs) fun hn => ?_
  rw [hn] at hears
  generalize y.bus.queues.get? v.subscription = queue' at hears hq
  generalize handledBy v.number handled = own at hears
  cases hears
  exact hq rfl

end Attends

/-- How an installer's listener at a session gets its events: from a queue, which is empty for one that has
yet to come, or from none any more. -/
inductive Hears (x : Session) (g : InstallerId) : Option (List Event) → Prop where
  | absent (nobody : ∀ w ∈ x.workers, w.isOf g = false) : Hears x g (some [])
  | here {c : Worker} {queue : Option (List Event)} (only : x.workers.filter (·.isOf g) = [c])
      (queued : x.bus.queues.get? c.subscription = queue)
      (attached : x.stopped = false → queue ≠ none → c.subscription ∈ x.bus.attached) : Hears x g queue
  | ended (stopped : x.stopped = true) (nobody : x.workers = []) : Hears x g none

namespace Hears

variable {x y : Session} {g : InstallerId} {queue : Option (List Event)} {c : Worker}

theorem mem_of_only (only : x.workers.filter (·.isOf g) = [c]) : c ∈ x.workers ∧ c.isOf g = true :=
  List.mem_filter.mp (only ▸ List.mem_singleton_self c)

/-- An installer's one listener is served by a worker of the session. -/
theorem of_attends (only : x.workers.filter (·.isOf g) = [c]) (h : x.Attends c queue) : x.Hears g queue :=
  .here only h.queued h.served

theorem attends (only : x.workers.filter (·.isOf g) = [c])
    (queued : x.bus.queues.get? c.subscription = queue)
    (attached : x.stopped = false → queue ≠ none → c.subscription ∈ x.bus.attached) : x.Attends c queue :=
  ⟨(mem_of_only only).1, queued, attached⟩

theorem pending (h : x.Hears g queue) : x.pending g = queue.getD [] := by
  cases h with
  | absent nobody => exact pending_of_none nobody
  | here only queued =>
    rw [pending_of_single only, ← queued]
    rfl
  | ended _ nobody => exact pending_of_none fun w hw => by rw [nobody] at hw; cases hw

theorem of_wiring_eq (h : x.Hears g queue) (hw : y.wiring = x.wiring) : y.Hears g queue := by
  obtain ⟨workers, _, bus, stopped⟩ := wiring_iff.mp hw
  cases h with
  | absent nobody => exact .absent (workers ▸ nobody)
  | here only queued attached => exact .here (workers ▸ only) (bus ▸ queued) (bus ▸ stopped ▸ attached)
  | ended hs nobody => exact .ended (stopped.trans hs) (workers.trans nobody)

/-- A running session gets another listener, which is the installer's first one if it is one of its. -/
theorem addWorker (h : x.Hears g queue) (hx : x.Wired) (hs : x.stopped = false) (l : Listener)
    (hone : (x.addWorker l).attachedBy g ≤ 1) : (x.addWorker l).Hears g queue := by
  have hworkers := x.addWorker_workers l
  have hfilter : (x.addWorker l).workers.filter (·.isOf g) =
      x.workers.filter (·.isOf g) ++ if l.owner = some g then [x.nextWorker l] else [] := by
    rw [hworkers, List.filter_append]
    by_cases ho : l.owner = some g <;> simp [Worker.isOf, nextWorker, ho]
  cases h with
  | absent nobody =>
    have hnone : x.workers.filter (·.isOf g) = [] :=
      List.filter_eq_nil_iff.mpr fun w hw => by rw [nobody w hw]; exact fun hn => by cases hn
    by_cases ho : l.owner = some g
    · rw [hnone, if_pos ho] at hfilter
      exact of_attends hfilter (.nextWorker x l)
    · rw [hnone, if_neg ho] at hfilter
      exact .absent fun w hw => by simpa using List.filter_eq_nil_iff.mp hfilter w hw
  | @here c _ only queued attached =>
    by_cases ho : l.owner = some g
    · have hcount : (x.addWorker l).attachedBy g = 2 := by
        rw [attachedBy, List.countP_eq_length_filter]
        change ((x.addWorker l).workers.filter (·.isOf g)).length = 2
        rw [hfilter, only, if_pos ho]
        rfl
      omega
    · rw [only, if_neg ho] at hfilter
      exact of_attends hfilter ((attends only queued attached).addWorker hx l)
  | ended stopped =>
    rw [hs] at stopped
    cases stopped

/-- A worker that was added is ended again before anything has been posted to it. -/
theorem tryWorker (h : x.Hears g queue) (hx : x.Wired) (l : Listener)
    (hfresh : ∀ w ∈ x.workers, w.listener.id ≠ l.id) : (x.tryWorker l).Hears g queue := by
  have hworkers := tryWorker_workers hfresh
  cases h with
  | absent nobody => exact .absent (hworkers ▸ nobody)
  | here only queued attached =>
    exact of_attends (hworkers ▸ only) ((attends only queued attached).tryWorker hx l)
  | ended hs nobody => exact .ended hs (hworkers.trans nobody)

/-- Somebody else's listener goes. -/
theorem endWorker (h : x.Hears g queue) (hx : x.Wired) {v : Worker} (hv : v ∈ x.workers)
    (hno : v.isOf g = false) : (x.endWorker v).Hears g queue := by
  cases h with
  | absent nobody => exact .absent fun w hw => nobody w (List.mem_of_mem_erase hw)
  | @here c _ only queued attached =>
    have hc := mem_of_only only
    have hcv : c ≠ v := fun he => by
      rw [he, hno] at hc
      cases hc.2
    have honly : (x.endWorker v).workers.filter (·.isOf g) = [c] := by
      rw [← only]
      change (x.workers.erase v).filter (·.isOf g) = x.workers.filter (·.isOf g)
      rw [hx.nodup.erase_eq_filter, List.filter_filter]
      refine List.filter_congr fun w _ => ?_
      by_cases he : w = v
      · rw [he, hno, Bool.false_and]
      · simp [he]
    exact of_attends honly ((attends only queued attached).endWorker hx hv hcv)
  | ended hs nobody => exact .ended hs (by rw [Session.endWorker, nobody]; rfl)

/-- A session whose queues are empty ends its workers and stops. -/
theorem stop (h : x.Hears g queue) (hempty : ∀ v ∈ x.workers, x.bus.queue v.subscription = [])
    (hw : y.workers = []) (hs : y.stopped = true) : y.Hears g queue := by
  have hgone : y.Hears g (some []) := .absent fun w hm => by rw [hw] at hm; cases hm
  cases h with
  | absent => exact hgone
  | @here c _ only queued =>
    cases queue with
    | none => exact .ended hs hw
    | some q =>
      have hq := hempty c (mem_of_only only).1
      rw [Bus.queue_of_get? queued] at hq
      rw [hq]
      exact hgone
  | ended => exact .ended hs hw

/-- A running session is posted an event. -/
theorem posted (h : x.Hears g queue) (hx : x.Wired) (hs : x.stopped = false) (e : Event) :
    ∃ queue', (x.posted e).Hears g queue' ∧
      Hearing queue (if x.workers.any (·.isOf g) then [e] else []) [] queue' := by
  cases h with
  | absent nobody =>
    have hany : x.workers.any (·.isOf g) = false := List.any_eq_false.mpr fun w hw => by
      rw [nobody w hw]
      nofun
    rw [hany]
    exact ⟨some [], .absent nobody, .refl _⟩
  | @here c _ only queued attached =>
    have hany : x.workers.any (·.isOf g) = true := List.any_eq_true.mpr ⟨c, mem_of_only only⟩
    obtain ⟨queue', hq, hears⟩ := (attends only queued attached).posted hx hs e
    rw [hany, if_pos rfl]
    exact ⟨queue', of_attends only hq, hears⟩
  | ended stopped =>
    rw [hs] at stopped
    cases stopped

end Hears

end Session

namespace Program

theorem session?_clearActive (s : Program) (id id' : SessionId) :
    (s.clearActive id).2.session? id' = s.session? id' := by
  unfold clearActive
  split <;> rfl

theorem session?_markStopped_self {s : Program} {id : SessionId} {x : Session}
    (hx : s.session? id = some x) : ∃ y, (markStopped id s).session? id = some y ∧
      y.workers = x.workers ∧ y.added = x.added ∧ y.writes = x.writes ∧ y.stopped = true := by
  unfold markStopped
  simp only [hx]
  cases hs : x.stopped with
  | true =>
    rw [if_pos rfl]
    exact ⟨x, hx, rfl, rfl, rfl, hs⟩
  | false =>
    rw [if_neg Bool.false_ne_true]
    split
    · rw [session?_clearActive, session?_modifySession, if_pos rfl, hx]
      exact ⟨_, rfl, rfl, rfl, rfl, rfl⟩
    · rw [session?_modifySession, if_pos rfl, session?_modifySession, if_pos rfl, hx]
      exact ⟨_, rfl, rfl, rfl, rfl, rfl⟩

theorem session?_markStopped_of_ne (s : Program) {id id' : SessionId} (hne : id' ≠ id) :
    (markStopped id s).session? id' = s.session? id' := by
  unfold markStopped
  split
  · rfl
  · split
    · rfl
    · simp only
      split
      · rw [session?_clearActive, session?_modifySession, if_neg hne]
      · rw [session?_modifySession, if_neg hne, session?_modifySession, if_neg hne]

/-- A session that ends its workers and is marked as stopped. -/
theorem session?_emptied {s : Program} {id : SessionId} {x : Session} (hx : s.session? id = some x) :
    ∃ y, (markStopped id (s.modifySession id fun session =>
        session.workers.foldl Session.endWorker session)).session? id = some y ∧
      y.workers = [] ∧ y.added = x.added ∧ y.writes = x.writes ∧ y.stopped = true := by
  obtain ⟨queues, hq⟩ := exists_foldl_endWorker x.workers x rfl
  refine session?_markStopped_self (x := { x with workers := [], bus := { x.bus with queues } }) ?_
  rw [session?_modifySession, if_pos rfl, hx, Option.map_some, hq]

theorem session?_emptied_of_ne (s : Program) {id id' : SessionId} (hne : id' ≠ id) :
    (markStopped id (s.modifySession id fun session =>
      session.workers.foldl Session.endWorker session)).session? id' = s.session? id' := by
  rw [session?_markStopped_of_ne _ hne, session?_modifySession, if_neg hne]

/-- How an installer's listener at a session gets its events. Where there is no session, none has come. -/
def Hears (s : Program) (g : InstallerId) (id : SessionId) (queue : Option (List Event)) : Prop :=
  match s.session? id with
  | none => queue = some []
  | some x => x.Hears g queue

namespace Hears

variable {s t u : Program} {g : InstallerId} {id id' : SessionId} {queue : Option (List Event)}

theorem of_session {x : Session} (hx : s.session? id = some x) (h : x.Hears g queue) :
    s.Hears g id queue := by
  rw [Hears, hx]
  exact h

theorem session (h : s.Hears g id queue) {x : Session} (hx : s.session? id = some x) :
    x.Hears g queue := by
  rw [Hears, hx] at h
  exact h

theorem pending (h : s.Hears g id queue) : s.pending g id = queue.getD [] := by
  rw [Program.pending]
  cases hx : s.session? id with
  | none =>
    rw [Hears, hx] at h
    rw [h]
    rfl
  | some x => exact (h.session hx).pending

/-- A step that changes sessions one by one. -/
theorem of_known (h : s.Hears g id queue) (hk : (t.session? id).isSome = (s.session? id).isSome)
    (hs : ∀ x y, s.session? id = some x → t.session? id = some y → x.Hears g queue →
      y.Hears g queue) : t.Hears g id queue := by
  cases hx : s.session? id with
  | none =>
    rw [hx] at hk
    have hy : t.session? id = none := Option.isNone_iff_eq_none.mp (by simpa using hk)
    rw [Hears, hy]
    rw [Hears, hx] at h
    exact h
  | some x =>
    rw [hx] at hk
    obtain ⟨y, hy⟩ := Option.isSome_iff_exists.mp hk
    exact of_session hy (hs x y hx hy (h.session hx))

theorem of_wiring_eq (hw : t.sessions.map Session.wiring = s.sessions.map Session.wiring)
    (h : s.Hears g id queue) : t.Hears g id queue := by
  refine h.of_known (isSome_session?_of_map_eq hw id) fun x y hx hy hh => ?_
  obtain ⟨x', hx', hxy⟩ := session?_of_map_eq hw hy
  rw [hx] at hx'
  cases hx'
  exact hh.of_wiring_eq hxy.symm

theorem of_sessions_eq (hs : t.sessions = s.sessions) (h : s.Hears g id queue) : t.Hears g id queue :=
  h.of_wiring_eq (by rw [hs])

theorem of_sessions_core_eq (hs : t.sessions.map Session.core = s.sessions.map Session.core)
    (h : s.Hears g id queue) : t.Hears g id queue := by
  have hw := congrArg (Table.map Session.wiring) hs
  simp only [Table.map, List.map_map] at hw
  exact h.of_wiring_eq (congrArg Table.mk (Table.mk.inj hw))

theorem of_core_eq (hc : t.core = s.core) (h : s.Hears g id queue) : t.Hears g id queue :=
  h.of_sessions_core_eq (congrArg Program.sessions hc :)

theorem of_modifySession {f : Session → Session}
    (ht : t.sessions.map Session.core = (s.modifySession id' f).sessions.map Session.core)
    (h : s.Hears g id queue)
    (hf : ∀ x, s.session? id' = some x → id = id' → x.Hears g queue → (f x).Hears g queue) :
    t.Hears g id queue := by
  have hm : (s.modifySession id' f).Hears g id queue := by
    refine h.of_known (isSome_session?_modifySession s id' id f) fun x y hx hy hh => ?_
    obtain ⟨x', hx', ⟨rfl, rfl⟩ | ⟨_, rfl⟩⟩ := modifySession_cases hy
    · rw [hx] at hx'
      cases hx'
      exact hf x hx rfl hh
    · rw [hx] at hx'
      cases hx'
      exact hh
  exact hm.of_sessions_core_eq ht

/-! ## Steps that deliver nothing -/

theorem start (h : s.Hears g id queue) (id' : SessionId) (settings : Settings) (backend : Backend)
    (home : Home) : (s.start id' settings backend home).Hears g id queue := by
  obtain he | ⟨hn, x, hw, _, _, _, he⟩ := start_cases s id' settings backend home
  · rw [he]
    exact h
  · rw [he]
    by_cases hid : id = id'
    · rw [Hears, hid, hn] at h
      have hx : (s.sessions.set id' x).get? id' = some x := Table.get?_set_self ..
      rw [hid, h]
      exact of_session hx (.absent fun v hv => by rw [hw] at hv; cases hv)
    · have hsame : (s.sessions.set id' x).get? id = s.sessions.get? id := Table.get?_set_of_ne _ _ hid
      rw [Hears] at h ⊢
      simp only [session?, hsame] at h ⊢
      exact h

theorem of_addWorker {l : Listener} {x : Session} (hw : s.Wired) (hx : s.session? id' = some x)
    (hs : x.stopped = false) (ht : t.sessions.map Session.core =
      (s.modifySession id' (·.addWorker l)).sessions.map Session.core)
    (hone : ∀ y, t.session? id = some y → y.attachedBy g ≤ 1) (h : s.Hears g id queue) :
    t.Hears g id queue := by
  refine h.of_modifySession ht fun z hz he hh => ?_
  subst he
  rw [hx] at hz
  cases hz
  refine hh.addWorker (hw id x hx) hs l ?_
  have hm : (s.modifySession id (·.addWorker l)).session? id = some (x.addWorker l) := by
    rw [session?_modifySession, if_pos rfl, hx, Option.map_some]
  obtain ⟨y, hy, hyx⟩ := session?_of_map_eq ht.symm hm
  have hcount := hone y hy
  rw [Session.attachedBy_of_workers_eq (show y.workers = (x.addWorker l).workers from
    (congrArg Session.workers hyx :))] at hcount
  exact hcount

theorem attach (hw : s.Wired) (l : Listener)
    (hone : ∀ y, ((Program.attach id' l).run s).2.session? id = some y → y.attachedBy g ≤ 1)
    (h : s.Hears g id queue) : ((Program.attach id' l).run s).2.Hears g id queue := by
  obtain ⟨x, t, hx, hs, _, hr, ht⟩ | ⟨e, t, hr, ht⟩ | ⟨x, t, _, _, hr, ht⟩ := attach_ends id' l s
  · rw [hr] at hone ⊢
    exact h.of_addWorker hw hx hs (congrArg Program.sessions ht :) hone
  · rw [hr]
    exact h.of_core_eq ht
  · rw [hr]
    exact h.of_core_eq ht

theorem installs {l : Listener} {e : Enricher} {r : Outcome InstallFailure ProcessorId}
    (hin : Installs id' l e s r u) (hw : s.Wired)
    (hfresh : ∀ x, s.session? id' = some x → ∀ w ∈ x.workers, w.listener.id ≠ l.id)
    (hone : ∀ y, u.session? id = some y → y.attachedBy g ≤ 1) (h : s.Hears g id queue) :
    u.Hears g id queue := by
  cases hin with
  | refused _ _ hc | lostAtFirst _ _ _ _ hc => exact h.of_core_eq hc
  | takenBack _ _ _ _ _ hc =>
    refine h.of_modifySession (congrArg Program.sessions hc :) fun x hx _ hh => ?_
    exact hh.tryWorker (hw id' x hx) l (hfresh x hx)
  | stuck _ _ _ hx hs hc | lostLater _ _ hx hs _ _ hc =>
    exact h.of_addWorker hw hx hs (congrArg Program.sessions hc :) hone
  | completed _ _ hx hs hc => exact h.of_addWorker hw hx hs (congrArg Program.sessions hc :) hone

theorem ensureInstalled {left : InstallerId → SessionId → Nat} (hsound : Sound left s) (hw : s.Wired)
    (g' : InstallerId) (hone : ∀ y, ((Program.ensureInstalled g' id').run s).2.session? id = some y →
      y.attachedBy g ≤ 1) (h : s.Hears g id queue) :
    ((Program.ensureInstalled g' id').run s).2.Hears g id queue := by
  obtain ⟨hsess, _, hl, _⟩ := forgetGone_fields g' s
  obtain ⟨r, _, hrun, _⟩ | ⟨i, r, u, _, _, hin, _, hrun⟩ :=
    ensureInstalled_cases g' id' s (hsound.listener_lt id')
  · rw [hrun]
    exact h.of_sessions_eq hsess
  · rw [hrun] at hone ⊢
    have hres : (reserved (Program.forgetGone g' s).2 g' id').sessions = s.sessions := hsess
    have hq : ∀ id x, (reserved (Program.forgetGone g' s).2 g' id').session? id = some x →
        s.session? id = some x := fun id x hx => by
      rw [session?, hres] at hx
      exact hx
    have hu : u.Hears g id queue := by
      refine installs hin (fun id x hx => hw id x (hq id x hx)) ?_ hone (h.of_sessions_eq hres)
      intro x hx w hm he
      have hlt := hsound.listener_lt id' x (hq id' x hx) w hm
      rw [he] at hlt
      exact absurd hl (Nat.ne_of_lt hlt)
    exact hu.of_sessions_eq rfl

/-- The session ends its workers, whose queues are empty, and is marked as stopped. -/
theorem emptied {y : Session} (hy : s.session? id' = some y)
    (hempty : ∀ v ∈ y.workers, y.bus.queue v.subscription = []) (h : s.Hears g id queue) :
    (markStopped id' (s.modifySession id' fun session =>
      session.workers.foldl Session.endWorker session)).Hears g id queue := by
  obtain ⟨z, hz, hworkers, _, _, hstopped⟩ := session?_emptied hy
  by_cases hid : id = id'
  · rw [hid] at h ⊢
    exact of_session hz ((h.session hy).stop hempty hworkers hstopped)
  · rw [Hears, session?_emptied_of_ne s hid]
    exact h

end Hears

end Program

namespace World

/-! ## Operations -/

/-- What an operation that leaves a program, with what it delivers and posts, does to the listeners of the
installers: each goes on from the queue that it had. -/
def Listens (w : World) (t : Program) (ds : List Delivery) (ps : List Posting) : Prop :=
  ∀ g id queue, (∀ y, t.session? id = some y → y.attachedBy g ≤ 1) → w.program.Hears g id queue →
    ∃ queue', t.Hears g id queue' ∧ Hearing queue (due ps g id) (handedTo ds g id) queue'

variable {w : World}

theorem Listens.of_quiet {t : Program} (h : ∀ g id queue,
    (∀ y, t.session? id = some y → y.attachedBy g ≤ 1) → w.program.Hears g id queue →
      t.Hears g id queue) : Listens w t [] [] :=
  fun g id queue hone hh => ⟨queue, h g id queue hone hh, .refl queue⟩

/-- Deliveries of a session, and a step behind them that delivers nothing. -/
theorem Listens.of_delivered {id : SessionId} {x : Session} {t u : Program} {h : List Handled}
    (hw : w.program.Wired) (hx : w.program.session? id = some x) (hd : Delivered id w.program t h)
    (hu : ∀ g id queue, t.Hears g id queue → u.Hears g id queue) :
    Listens w u (w.deliveries id h) [] := by
  intro g id' queue _ hh
  suffices hs : ∃ queue', t.Hears g id' queue' ∧
      Hearing queue [] (handedTo (w.deliveries id h) g id') queue' by
    obtain ⟨queue', ht, hq⟩ := hs
    exact ⟨queue', hu g id' queue' ht, hq⟩
  by_cases he : id' = id
  · subst he
    obtain ⟨y, hy, hxy⟩ := hd.here x hx
    obtain ⟨hnone, hone⟩ := handedTo_deliveries hx (hw id' x hx) hxy.known g
    have hstopped : y.stopped = x.stopped := (congrArg Session.stopped hxy.outline_eq :)
    cases hh.session hx with
    | absent nobody =>
      rw [hnone nobody]
      exact ⟨_, .of_session hy (.absent (hxy.workers_eq ▸ nobody)), .refl _⟩
    | @here c _ only queued attached =>
      obtain ⟨hc, ho⟩ := Session.Hears.mem_of_only only
      obtain ⟨queue', hq, hears⟩ := (Session.Hears.attends only queued attached).delivers hxy
      rw [hone c hc ho only]
      exact ⟨queue', .of_session hy (.of_attends (hxy.workers_eq ▸ only) hq), hears⟩
    | ended stopped nobody =>
      rw [hnone fun v hv => by rw [nobody] at hv; cases hv]
      exact ⟨none, .of_session hy (.ended (hstopped.trans stopped) (hxy.workers_eq.trans nobody)), .gone⟩
  · rw [handedTo_deliveries_of_ne w h g (Ne.symm he)]
    refine ⟨queue, ?_, .refl _⟩
    have hk := hd.others id' he
    refine hh.of_known ?_ fun z y hz hy hzh => ?_
    · have := congrArg Option.isSome hk
      simpa only [Option.isSome_map] using this
    · rw [hz, hy, Option.map_some, Option.map_some, Option.some.injEq] at hk
      exact hzh.of_wiring_eq (Session.wiring_of_core_eq hk)

theorem listens_post (hw : w.program.Wired) (id : SessionId) (e : Event) :
    Listens w ((Operation.post id e).next w).program [] ((Operation.post id e).postings w) := by
  simp only [Operation.next, Operation.postings, through, update]
  cases hr : w.program.isReachable id with
  | false =>
    simp only [Bool.false_eq_true, if_false]
    exact .of_quiet fun _ _ _ _ hh => hh
  | true =>
    obtain ⟨x, hx, _⟩ := isReachable_iff.mp hr
    have hp : (Program.post id e).run w.program = (onSession id (Session.post e)).run w.program := rfl
    cases hs : x.stopped with
    | true =>
      rw [hp, run_onSession hx, Session.run_post_of_stopped e hs]
      simp only [hx, if_true]
      exact .of_quiet fun _ _ _ _ hh => hh.of_wiring_eq (Table.map_set_of_get? hx rfl)
    | false =>
      rw [hp, run_onSession hx, Session.run_post_of_running e hs]
      simp only [hx, if_true]
      change Listens w { w.program with sessions := w.program.sessions.set id (x.posted e) } []
        [⟨id, e, x.workers⟩]
      intro g id' queue _ hh
      rw [due_singleton]
      by_cases he : id' = id
      · subst he
        obtain ⟨queue', hh', hq⟩ := (hh.session hx).posted (hw id' x hx) hs e
        have hset : (w.program.sessions.set id' (x.posted e)).get? id' = some (x.posted e) :=
          Table.get?_set_self ..
        simp only [true_and]
        exact ⟨queue', .of_session hset hh', hq⟩
      · have hset : (w.program.sessions.set id (x.posted e)).get? id' = w.program.session? id' :=
          Table.get?_set_of_ne _ _ he
        rw [if_neg fun h => he h.1.symm]
        refine ⟨queue, ?_, .refl _⟩
        rw [Program.Hears] at hh ⊢
        simp only [session?, hset] at hh ⊢
        exact hh

theorem listens_stop (hw : w.program.Wired) (id : SessionId) :
    Listens w ((Operation.stop id).next w).program ((Operation.stop id).deliveries w) [] := by
  obtain ⟨hn, hd, -⟩ | ⟨x, t, k, hx, -, hdel, hn, hd⟩ := stop_cases w id <;> rw [hn, hd]
  · exact .of_quiet fun _ _ _ _ hh => hh
  · obtain ⟨hd, hempty⟩ := hdel (hw id x hx)
    obtain ⟨y, hy, _⟩ := hd.here x hx
    exact .of_delivered hw hx hd fun _ _ _ hh => hh.emptied hy (hempty y hy)

variable {left : InstallerId → SessionId → Nat}

/-- A listener that somebody outside can detach is nobody's. -/
theorem listens_detach (h : w.Sound left) (hw : w.program.Wired) (id : SessionId) (l : Listener) :
    Listens w ((Operation.detach id l).next w).program ((Operation.detach id l).deliveries w) [] := by
  obtain ⟨hn, hd, -⟩ | ⟨x, v, t, k, hx, ⟨hl, -, hf⟩, -, hdel, hn, hd, -⟩ := detach_cases w id l
  · rw [hd]
    exact .of_quiet fun _ _ _ _ hh => hh.of_core_eq hn
  · rw [hn, hd]
    obtain ⟨hd, hthere⟩ := hdel (hw id x hx)
    have hv : v ∈ x.workers := List.mem_of_find?_eq_some hf
    have hid : v.listener.id = l.id := by simpa using List.find?_some hf
    have howner : v.listener.owner = none := (h.foreign l hl).alone id x hx v hv hid
    refine .of_delivered hw hx hd fun g id' queue hh => hh.of_modifySession rfl fun y hy _ hhy => ?_
    obtain ⟨y', hy', hxy⟩ := hd.here x hx
    have he : y' = y := Option.some.inj (hy'.symm.trans hy)
    exact hhy.endWorker (he ▸ hxy.wired (hw id x hx)) (hthere y hy).1 (by simp [Worker.isOf, howner])

/-- Every operation leaves an installer's listener with the queue that it had, but for what is posted and
what is delivered. -/
theorem listens_next (h : w.Sound left) (hw : w.program.Wired) (o : Operation) :
    Listens w (o.next w).program (o.deliveries w) (o.postings w) := by
  cases o with
  | post id e => exact listens_post hw id e
  | stop id => exact listens_stop hw id
  | detach id l => exact listens_detach h hw id l
  | turn id number =>
    obtain ⟨hn, hd⟩ | ⟨x, t, k, hx, hdel, hn, hd⟩ := turn_cases w id number <;> rw [hn, hd]
    · exact .of_quiet fun _ _ _ _ hh => hh
    · exact .of_delivered hw hx (hdel (hw id x hx)) fun _ _ _ hh => hh
  | start id settings backend detached =>
    exact .of_quiet fun _ _ _ _ hh => hh.start id settings backend _
  | release id => exact .of_quiet fun _ _ _ _ hh => hh.of_wiring_eq (Table.map_modify _ _ fun _ => rfl)
  | setBackend id backend =>
    exact .of_quiet fun _ _ _ _ hh => hh.of_wiring_eq (Table.map_modify _ _ fun _ => rfl)
  | read id a =>
    exact .of_quiet fun g id' queue _ hh => through_preserves (P := (·.Hears g id' queue)) hh
      (hh.of_core_eq (onSession_keeps_core id (Session.read_keeps_core a) _))
  | write id key value =>
    exact .of_quiet fun g id' queue _ hh => through_preserves (P := (·.Hears g id' queue)) hh
      (hh.of_core_eq (onSession_keeps_core id (Session.write_keeps_core key value) _))
  | makeActive id =>
    exact .of_quiet fun g id' queue _ hh =>
      through_preserves (P := (·.Hears g id' queue)) hh (hh.of_sessions_eq rfl)
  | clearActive id =>
    refine .of_quiet fun _ _ _ _ hh => hh.of_sessions_eq ?_
    simp only [Operation.next, update, clearActive]
    split <;> rfl
  | attach id l =>
    refine .of_quiet fun g id' queue hone hh => ?_
    revert hone
    simp only [Operation.next]
    split
    · exact through_preserves
        (P := fun t => (∀ y, t.session? id' = some y → y.attachedBy g ≤ 1) → t.Hears g id' queue)
        (fun _ => hh) fun hone => hh.attach hw l hone
    · exact fun _ => hh
  | submit report hint =>
    exact .of_quiet fun _ _ _ _ hh => hh.of_sessions_core_eq (congrArg Program.sessions
      (submit_thins report hint w.program).body_eq :)
  | ensureInstalled g' id =>
    refine .of_quiet fun g id' queue hone hh => ?_
    revert hone
    exact ensureInstalled_preserves
      (P := fun t => (∀ y, t.session? id' = some y → y.attachedBy g ≤ 1) → t.Hears g id' queue)
      g' id (fun _ => hh) fun hone => hh.ensureInstalled h.program hw g' hone
  | forgetGone g' =>
    exact .of_quiet fun g id' queue _ hh => forgetGone_preserves (P := fun t => t.Hears g id' queue) g' hh
      (hh.of_sessions_eq (forgetGone_fields g' _).1)
  | setUp i =>
    refine .of_quiet fun g id' queue hone hh => ?_
    revert hone
    refine setUp_preserves
      (P := fun t => (∀ y, t.session? id' = some y → y.attachedBy g ≤ 1) → t.Hears g id' queue)
      w i (fun _ => hh) (fun _ _ => hh.of_sessions_eq rfl) (fun config id _ hone => ?_)
      fun t integrations ht hone => (ht hone).of_sessions_eq rfl
    have hmade : (w.program.newInstaller config).2.Hears g id' queue := hh.of_sessions_eq rfl
    exact hmade.ensureInstalled (h.program.newInstaller config) hw _ hone
  | tick | newListener | enable | disable | leave | clearCrumbs | register | unregister
  | newInstaller | newIntegration => exact .of_quiet fun _ _ _ _ hh => hh.of_sessions_eq rfl

/-! ## Runs -/

theorem hears_initial (now : Timestamp) (retention : Retention) (g : InstallerId) (id : SessionId) :
    (initial now retention).program.Hears g id (some []) := rfl

/-- As long as an installer leaves no listener at a session by crashing, its one listener there goes on from
the queue that it had, through the whole run. -/
theorem listens_perform {ops : List Operation} {w : World} {left : InstallerId → SessionId → Nat}
    (h : w.Sound left) (hw : w.program.Wired) {g : InstallerId} {id : SessionId}
    {queue : Option (List Event)} (hh : w.program.Hears g id queue)
    (hz : left g id + leaks (along Operation.activations ops w) g id = 0) :
    ∃ queue', (perform ops w).program.Hears g id queue' ∧
      Hearing queue (due (along Operation.postings ops w) g id)
        (handedTo (along Operation.deliveries ops w) g id) queue' := by
  induction ops generalizing w left queue with
  | nil => exact ⟨queue, hh, .refl queue⟩
  | cons o rest ih =>
    simp only [along, leaks_append] at hz
    obtain ⟨between, hbetween, hfirst⟩ := listens_next h hw o g id queue
      (fun y hy => attachedBy_le_one (h.next o) (by omega) hy) hh
    obtain ⟨after, hafter, hrest⟩ := ih (h.next o) ((mails_next h o).wired hw) hbetween (by omega)
    simp only [along, perform, due_append, handedTo_append]
    exact ⟨after, hafter, hfirst.trans hrest⟩

end World

/-! ## What makes a listener crash -/

namespace Program

variable {s : Program} {id : SessionId} {k : Handled}

/-- The identity properties are written afresh when a job starts or an attempt is submitted. -/
theorem refreshesIdentity_eq (e : Event) :
    e.refreshesIdentity = decide (e.kind = .jobStart ∨ e.kind = .stageSubmitted) := by
  cases e <;> rfl

theorem writeIdentity_crashed {keyPrefix : String} {active : Option SessionId}
    (h : ((writeIdentity keyPrefix active).run s).1 = .crashed) :
    ∃ id x, active = some id ∧ s.session? id = some x ∧
      ((Session.writeIdentity keyPrefix).run x).1 = .crashed := by
  cases active with
  | none => cases h
  | some id =>
    change ((onSession id (Session.writeIdentity keyPrefix)).run s).1 = .crashed at h
    cases hx : s.session? id with
    | none =>
      rw [run_onSession_of_none hx] at h
      cases h
    | some x =>
      rw [run_onSession hx] at h
      exact ⟨id, x, rfl, hx, h⟩

theorem refreshIdentity_crashed {keyPrefix : String}
    (h : ((refreshIdentity keyPrefix).run s).1 = .crashed) :
    ((writeIdentity keyPrefix s.active).run s).1 = .crashed := by
  change (refreshIdentity keyPrefix s).1 = .crashed at h
  unfold refreshIdentity at h
  rcases hr : (writeIdentity keyPrefix s.active).run s with ⟨_ | ⟨_ | _⟩ | _, t⟩ <;>
    simp [hr, Outcome.mapError] at h ⊢

/-- A listener crashes only if it writes the identity properties of the active session afresh, and a call of
that session crashes. -/
theorem notify_crashed {l : Listener} {e : Event} (h : ((notify l e).run s).1 = .crashed) :
    (e.kind = .jobStart ∨ e.kind = .stageSubmitted) ∧ ∃ keyPrefix id x, l.behaviour = .trail keyPrefix ∧
      s.active = some id ∧ s.session? id = some x ∧
        ((Session.writeIdentity keyPrefix).run x).1 = .crashed := by
  cases hb : l.behaviour with
  | silent =>
    simp only [notify, hb] at h
    cases h
  | recorder answers =>
    simp only [notify, hb, Action.run_bind, Action.run_modify] at h
    cases ha : answers.get? e.kind <;> simp [ha] at h
  | trail keyPrefix =>
    simp only [notify, hb] at h
    change (trail keyPrefix e s).1 = .crashed at h
    unfold trail at h
    split at h
    · cases h
    · cases h
    · split at h
      · rename_i note _ hrefresh
        obtain ⟨id, x, ha, hx, hc⟩ := writeIdentity_crashed (refreshIdentity_crashed h)
        rw [refreshesIdentity_eq, decide_eq_true_eq] at hrefresh
        exact ⟨hrefresh, keyPrefix, id, x, rfl, ha, hx, hc⟩
      · cases h

/-- A worker crashes only when a job starts or an attempt is submitted. -/
theorem turn_crashed {v : Worker} (hk : k ∈ (turn id v s).1) (hc : k.result = .crashed) :
    k.event.kind = .jobStart ∨ k.event.kind = .stageSubmitted := by
  obtain ⟨_, _, _, _, _, rfl⟩ := mem_turn hk
  exact (notify_crashed hc).1

theorem round_crashed {workers : List Worker} (hk : k ∈ (round id workers s).1)
    (hc : k.result = .crashed) : k.event.kind = .jobStart ∨ k.event.kind = .stageSubmitted := by
  induction workers generalizing s with
  | nil => cases hk
  | cons v rest ih => exact (List.mem_append.mp hk).elim (turn_crashed · hc) (ih ·)

theorem rounds_crashed {workers : List Worker} {n : Nat} (hk : k ∈ (rounds id workers n s).1)
    (hc : k.result = .crashed) : k.event.kind = .jobStart ∨ k.event.kind = .stageSubmitted := by
  induction n generalizing s with
  | zero => cases hk
  | succ n ih => exact (List.mem_append.mp hk).elim (round_crashed · hc) (ih ·)

theorem flush_crashed {workers : List Worker} (hk : k ∈ (flush id workers s).1)
    (hc : k.result = .crashed) : k.event.kind = .jobStart ∨ k.event.kind = .stageSubmitted := by
  unfold flush at hk
  split at hk
  · exact rounds_crashed hk hc
  · cases hk

end Program

namespace World

theorem mem_deliveries {w : World} {id : SessionId} {h : List Handled} {d : Delivery}
    (hd : d ∈ w.deliveries id h) : ∃ k ∈ h, k.event = d.event ∧ k.result = d.result := by
  obtain ⟨k, hk, hkd⟩ := List.mem_filterMap.mp hd
  obtain ⟨v, _, rfl⟩ := Option.map_eq_some_iff.mp hkd
  exact ⟨k, hk, rfl, rfl⟩

theorem delivery_crashed {w : World} {o : Operation} {d : Delivery} (hd : d ∈ o.deliveries w)
    (hc : d.result = .crashed) : d.event.kind = .jobStart ∨ d.event.kind = .stageSubmitted := by
  have hall : ∀ id h, d ∈ w.deliveries id h →
      (∀ k ∈ h, k.result = .crashed → k.event.kind = .jobStart ∨ k.event.kind = .stageSubmitted) →
        d.event.kind = .jobStart ∨ d.event.kind = .stageSubmitted := by
    intro id h hm hh
    obtain ⟨k, hk, he, hr⟩ := mem_deliveries hm
    exact he ▸ hh k hk (hr.trans hc)
  cases o with
  | turn id number =>
    simp only [Operation.deliveries] at hd
    split at hd
    · exact hall _ _ hd fun k hk => turn_crashed hk
    · cases hd
  | stop id =>
    simp only [Operation.deliveries] at hd
    split at hd
    · exact hall _ _ hd fun k hk => flush_crashed hk
    · cases hd
  | detach id l =>
    simp only [Operation.deliveries] at hd
    split at hd
    · split at hd
      · split at hd
        · exact hall _ _ hd fun k hk => flush_crashed hk
        · cases hd
      · cases hd
    · cases hd
  | _ => cases hd

end World

/-- What a listener that never crashed has told by the end, and what one has told that did. -/
theorem told_of_hearing {queue' : Option (List Event)} {due : List Event}
    {handed : List (Event × Outcome HandlingError Unit)} (h : Hearing (some []) due handed queue') :
    ((∀ k ∈ handed, k.2 ≠ .crashed) → handed.map Prod.fst ++ queue'.getD [] = due) ∧
      ∀ k ∈ handed, k.2 = .crashed → queue' = none ∧
        ∃ first rest, handed = first ++ [k] ∧ (∀ j ∈ first, j.2 ≠ .crashed) ∧
          due = handed.map Prod.fst ++ rest := by
  refine ⟨fun hr => (h.of_returned hr rfl).1, fun k hk hc => ?_⟩
  cases h with
  | heard all returned => exact absurd hc (returned k hk)
  | @crashed _ _ handed e begins returned =>
    obtain hk | hk := List.mem_append.mp hk
    · exact absurd hc (returned k hk)
    · obtain ⟨rest, hrest⟩ := begins
      refine ⟨rfl, handed, rest, by rw [List.mem_singleton.mp hk], returned, ?_⟩
      rw [List.map_append]
      exact hrest.symm

/-- What becomes of an installer's trail at a session, in every run in which its crashes have left no second
listener there. What its listener has told is told of the events that it was handed, whatever became of
them. As long as it has not crashed, these are the events that were posted while it was attached, but for
those that still wait; none waits at a session that has stopped. It crashes only at the start of a job or
the submission of an attempt, which have the identity properties written afresh; that one it has told of,
but it is told nothing of the events behind it. -/
theorem crashing_refresh_silences (now : Timestamp) (retention : Retention) (cs : List Command) :
    let ops := Command.allOperations cs (initial now retention)
    let ds := along Operation.deliveries ops (initial now retention)
    let ps := along Operation.postings ops (initial now retention)
    let s := (Command.runAll cs (initial now retention)).program
    ∀ g id, leaks (along Operation.activations ops (initial now retention)) g id = 0 →
      (contributed ds g id).map Breadcrumb.content =
        ((handedTo ds g id).map Prod.fst).flatMap Event.crumbs ∧
      ((∀ k ∈ handedTo ds g id, k.2 ≠ .crashed) →
        (handedTo ds g id).map Prod.fst ++ s.pending g id = due ps g id ∧
        (s.hasStopped id = true → (contributed ds g id).map Breadcrumb.content =
          (due ps g id).flatMap Event.crumbs)) ∧
      ∀ k ∈ handedTo ds g id, k.2 = .crashed →
        (k.1.kind = .jobStart ∨ k.1.kind = .stageSubmitted) ∧ s.pending g id = [] ∧
        ∃ first rest, handedTo ds g id = first ++ [k] ∧ (∀ j ∈ first, j.2 ≠ .crashed) ∧
          due ps g id = (handedTo ds g id).map Prod.fst ++ rest := by
  intro ops ds ps s g id hz
  have hinit := sound_initial now retention
  have hrun : s = (perform ops (initial now retention)).program := by
    rw [← Command.runAll_eq_perform]
  obtain ⟨queue, hh, hears⟩ := listens_perform hinit (wired_initial now retention)
    (hears_initial now retention g id) (show 0 + _ = 0 by rw [hz])
  have hpend : s.pending g id = queue.getD [] := by
    rw [hrun]
    exact hh.pending
  obtain ⟨hwhole, hcrash⟩ := told_of_hearing hears
  have htold : (contributed ds g id).map Breadcrumb.content =
      ((handedTo ds g id).map Prod.fst).flatMap Event.crumbs := by
    rw [contributed_eq_taken (fun d hd => tells_of_mem_along hinit hd) g id, taken_eq_map]
  refine ⟨htold, fun hr => ?_, fun k hk hc => ?_⟩
  · have hall := hwhole hr
    refine ⟨hpend ▸ hall, fun hstop => ?_⟩
    have hnone : queue.getD [] = [] := by
      rw [← hpend, hrun]
      exact pending_of_stopped (hinit.perform ops) (hrun ▸ hstop) g
    rw [htold, ← hall, hnone, List.append_nil]
  · obtain ⟨hgone, first, rest, hf, hfirst, hdue⟩ := hcrash k hk hc
    obtain ⟨d, hd, rfl⟩ := List.mem_map.mp hk
    obtain ⟨begin, o, _, _, ho⟩ := mem_along (List.mem_of_mem_filter hd)
    refine ⟨delivery_crashed ho hc, ?_, first, rest, hf, hfirst, hdue⟩
    rw [hpend, hgone]
    rfl

/-- A run in which a job starts and ends while the application's name cannot be read without a crash. -/
def silencedRun : List Command :=
  [.operation (.start ⟨⟨0⟩⟩ (.standard none) .sound false), .operation (.newInstaller .standard),
    .operation (.ensureInstalled ⟨0⟩ ⟨⟨0⟩⟩), .operation (.setBackend ⟨⟨0⟩⟩ .nameless),
    .operation (.post ⟨⟨0⟩⟩ (.jobStart ⟨7⟩ .epoch [])), .operation (.turn ⟨⟨0⟩⟩ 0),
    .operation (.post ⟨⟨0⟩⟩ (.jobEnd ⟨7⟩ .epoch .succeeded)), .operation (.turn ⟨⟨0⟩⟩ 0)]

/-- The listener crashes at the start of the job, which it has told of. It was to hear of the end as well, but
is told nothing of it. -/
theorem silenced_run_tells_of_the_start :
    let start := initial .epoch .standard
    let ops := Command.allOperations silencedRun start
    let ds := along Operation.deliveries ops start
    leaks (along Operation.activations ops start) ⟨0⟩ ⟨⟨0⟩⟩ = 0 ∧
    handedTo ds ⟨0⟩ ⟨⟨0⟩⟩ = [(.jobStart ⟨7⟩ .epoch [], .crashed)] ∧
    (contributed ds ⟨0⟩ ⟨⟨0⟩⟩).map Breadcrumb.content = [(.info, "Job 7 Started", [])] ∧
    (Command.runAll silencedRun start).program.pending ⟨0⟩ ⟨⟨0⟩⟩ = [] ∧
    due (along Operation.postings ops start) ⟨0⟩ ⟨⟨0⟩⟩ =
      (handedTo ds ⟨0⟩ ⟨⟨0⟩⟩).map Prod.fst ++ [.jobEnd ⟨7⟩ .epoch .succeeded] := by
  intro start ops ds
  have hleaks : leaks (along Operation.activations ops start) ⟨0⟩ ⟨⟨0⟩⟩ = 0 := by decide
  have hhanded : handedTo ds ⟨0⟩ ⟨⟨0⟩⟩ = [(.jobStart ⟨7⟩ .epoch [], .crashed)] := by decide
  obtain ⟨htold, -, hcrash⟩ := crashing_refresh_silences .epoch .standard silencedRun ⟨0⟩ ⟨⟨0⟩⟩ hleaks
  obtain ⟨-, hpending, _, lost, -, -, hdue⟩ := hcrash _ (hhanded ▸ List.mem_singleton_self _) rfl
  have hposted : due (along Operation.postings ops start) ⟨0⟩ ⟨⟨0⟩⟩ =
      [.jobStart ⟨7⟩ .epoch [], .jobEnd ⟨7⟩ .epoch .succeeded] := by decide
  refine ⟨hleaks, hhanded, ?_, hpending, ?_⟩
  · rw [htold, hhanded]
    rfl
  · have hlost : lost = [.jobEnd ⟨7⟩ .epoch .succeeded] := by
      rw [hposted, hhanded] at hdue
      exact (List.cons.inj hdue).2.symm
    exact hlost ▸ hdue

/-- Both events were posted while the one listener was attached, and none waits; but it has told of the
first alone. -/
theorem crash_silences_job_end :
    let ops := Command.allOperations silencedRun (initial .epoch .standard)
    let s := (Command.runAll silencedRun (initial .epoch .standard)).program
    leaks (along Operation.activations ops (initial .epoch .standard)) ⟨0⟩ ⟨⟨0⟩⟩ = 0 ∧
    due (along Operation.postings ops (initial .epoch .standard)) ⟨0⟩ ⟨⟨0⟩⟩ =
      [.jobStart ⟨7⟩ .epoch [], .jobEnd ⟨7⟩ .epoch .succeeded] ∧
    (s.session? ⟨⟨0⟩⟩).map (fun x => (x.stopped, x.attachedBy ⟨0⟩)) = some (false, 1) ∧
    s.pending ⟨0⟩ ⟨⟨0⟩⟩ = [] ∧
    s.reporter.breadcrumbs.map Breadcrumb.content = [(.info, "Job 7 Started", [])] := by
  exact ⟨by decide, by decide, by decide, by decide, by decide⟩

end SessionTrail

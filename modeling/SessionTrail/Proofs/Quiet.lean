import Mathlib.Data.List.Basic
import SessionTrail.Proofs.Mail

/-!
# Steps that deliver nothing

As long as no event is posted and none is delivered, what waits for an installer's listeners stays as it
is, whichever listeners come and go.
-/
namespace SessionTrail

open Program World

/-- Whether a worker serves a listener that an installer made. -/
def Worker.isOf (w : Worker) (g : InstallerId) : Bool := w.listener.owner = some g

namespace Session

/-- The events that wait for an installer's listeners. -/
def pending (x : Session) (g : InstallerId) : List Event :=
  (x.workers.filter (·.isOf g)).flatMap fun w => x.bus.queue w.subscription

theorem pending_of_none {x : Session} {g : InstallerId}
    (h : ∀ w ∈ x.workers, w.isOf g = false) : x.pending g = [] := by
  have hf : x.workers.filter (·.isOf g) = [] :=
    List.filter_eq_nil_iff.mpr fun w hw => by rw [h w hw]; nofun
  simp only [pending, hf, List.flatMap_nil]

theorem pending_of_single {x : Session} {g : InstallerId} {c : Worker}
    (h : x.workers.filter (·.isOf g) = [c]) : x.pending g = x.bus.queue c.subscription := by
  simp only [pending, h, List.flatMap_cons, List.flatMap_nil, List.append_nil]

/-! ## Listeners that come and go -/

/-- What the mail of a session depends on. -/
def wiring (x : Session) : List Worker × Nat × Bus Event × Bool :=
  (x.workers, x.added, x.bus, x.stopped)

theorem wiring_of_core_eq {x y : Session} (h : y.core = x.core) : y.wiring = x.wiring := by
  have hw := congrArg wiring h
  exact hw

theorem wiring_iff {x y : Session} : y.wiring = x.wiring ↔
    y.workers = x.workers ∧ y.added = x.added ∧ y.bus = x.bus ∧ y.stopped = x.stopped := by
  simp only [wiring, Prod.mk.injEq]

theorem pending_of_wiring_eq {x y : Session} (h : y.wiring = x.wiring) (g : InstallerId) :
    y.pending g = x.pending g := by
  obtain ⟨hw, _, hb, _⟩ := wiring_iff.mp h
  simp only [pending, hw, hb]

theorem Wired.of_wiring_eq {x y : Session} (hx : x.Wired) (h : y.wiring = x.wiring) : y.Wired := by
  obtain ⟨hw, ha, hb, _⟩ := wiring_iff.mp h
  constructor
  · rw [hw]
    exact hx.ascending
  · intro w hm
    rw [hw] at hm
    rw [ha, hb]
    exact hx.bounded w hm
  · rw [hb]
    exact hx.attached_nodup
  · intro a hm
    rw [hb] at hm ⊢
    exact hx.attached_lt a hm

theorem Connected.of_wiring_eq {x y : Session} (hx : x.Connected) (h : y.wiring = x.wiring) :
    y.Connected := by
  obtain ⟨hw, _, hb, hs⟩ := wiring_iff.mp h
  intro w hm
  rw [hw] at hm
  rw [hb, hs]
  exact hx w hm

theorem addWorker_get? (x : Session) (l : Listener) {sub : SubscriptionId}
    (h : sub.val < x.bus.made) :
    (x.addWorker l).bus.queues.get? sub = x.bus.queues.get? sub := by
  refine Table.get?_set_of_ne _ _ fun he => ?_
  rw [he] at h
  exact Nat.lt_irrefl _ h

theorem Wired.addWorker {x : Session} (hx : x.Wired) (l : Listener) : (x.addWorker l).Wired := by
  constructor
  · refine List.pairwise_append.mpr ⟨hx.ascending, List.pairwise_singleton _ _, fun u hu v hv => ?_⟩
    rw [List.mem_singleton.mp hv]
    exact hx.bounded u hu
  · intro w hw
    rcases List.mem_append.mp hw with hw | hw
    · obtain ⟨h1, h2⟩ := hx.bounded w hw
      exact ⟨Nat.lt_succ_of_lt h1, Nat.lt_succ_of_lt h2⟩
    · rw [List.mem_singleton.mp hw]
      exact ⟨Nat.lt_succ_self _, Nat.lt_succ_self _⟩
  · refine List.nodup_append.mpr ⟨hx.attached_nodup, List.pairwise_singleton _ _, fun a ha b hb => ?_⟩
    rw [List.mem_singleton.mp hb]
    intro he
    have hlt := hx.attached_lt a ha
    rw [he] at hlt
    exact Nat.lt_irrefl _ hlt
  · intro a ha
    rcases List.mem_append.mp ha with ha | ha
    · exact Nat.lt_succ_of_lt (hx.attached_lt a ha)
    · rw [List.mem_singleton.mp ha]
      exact Nat.lt_succ_self _

theorem Connected.addWorker {x : Session} (hw : x.Wired) (hx : x.Connected) (l : Listener) :
    (x.addWorker l).Connected := by
  intro w hm
  rcases List.mem_append.mp hm with hm | hm
  · obtain ⟨hl, ha⟩ := hx w hm
    refine ⟨?_, fun hs => List.mem_append_left _ (ha hs)⟩
    rw [Bus.isLive, Table.contains, x.addWorker_get? l (hw.bounded w hm).2]
    exact hl
  · rw [List.mem_singleton.mp hm]
    refine ⟨?_, fun _ => List.mem_append_right _ (List.mem_singleton_self _)⟩
    simp only [Session.addWorker, Bus.subscribe, Bus.isLive, Table.contains, Table.get?_set_self,
      Option.isSome_some]

/-- A new listener has nothing in its queue. -/
theorem pending_addWorker {x : Session} (hx : x.Wired) (l : Listener) (g : InstallerId) :
    (x.addWorker l).pending g = x.pending g := by
  have hold : (x.workers.filter (·.isOf g)).flatMap
        (fun w => (x.addWorker l).bus.queue w.subscription) = x.pending g := by
    refine List.flatMap_congr fun w hw => ?_
    simp only [Bus.queue, x.addWorker_get? l (hx.bounded w (List.mem_filter.mp hw).1).2]
  rw [pending, addWorker_workers, List.filter_append, List.flatMap_append, hold]
  have hnew : ([x.nextWorker l].filter (·.isOf g)).flatMap
      (fun w => (x.addWorker l).bus.queue w.subscription) = [] := by
    rw [List.filter_cons, List.filter_nil]
    split
    · simp only [List.flatMap_cons, List.flatMap_nil, addWorker_queue, List.append_nil]
    · rfl
  rw [hnew, List.append_nil]

theorem endWorker_get? (x : Session) {v : Worker} {sub : SubscriptionId} (h : sub ≠ v.subscription) :
    (x.endWorker v).bus.queues.get? sub = x.bus.queues.get? sub := by
  simp only [endWorker, Bus.drop, Table.get?_erase, if_neg h]

theorem Wired.endWorker {x : Session} (hx : x.Wired) (v : Worker) : (x.endWorker v).Wired :=
  ⟨hx.ascending.sublist List.erase_sublist, fun w hw => hx.bounded w (List.mem_of_mem_erase hw),
    hx.attached_nodup, hx.attached_lt⟩

theorem Wired.nodup {x : Session} (hx : x.Wired) : x.workers.Nodup :=
  hx.ascending.imp fun {_ _} h he => absurd (congrArg Worker.number he) (Nat.ne_of_lt h.1)

theorem Wired.subscription_ne {x : Session} (hx : x.Wired) {v w : Worker} (hv : v ∈ x.workers)
    (hw : w ∈ x.workers.erase v) : w.subscription ≠ v.subscription := by
  intro he
  have hm := List.mem_of_mem_erase hw
  have heq := hx.subscription_inj hm hv he
  rw [heq] at hw
  exact hx.nodup.not_mem_erase hw

theorem Connected.endWorker {x : Session} (hw : x.Wired) (hx : x.Connected) {v : Worker}
    (hv : v ∈ x.workers) : (x.endWorker v).Connected := by
  intro w hm
  obtain ⟨hl, ha⟩ := hx w (List.mem_of_mem_erase hm)
  refine ⟨?_, ha⟩
  rw [Bus.isLive, Table.contains, x.endWorker_get? (hw.subscription_ne hv hm)]
  exact hl

theorem flatMap_filter_erase {α β : Type} [DecidableEq α] (p : α → Bool) (f : α → List β) {a : α}
    (h : f a = []) (l : List α) : ((l.erase a).filter p).flatMap f = (l.filter p).flatMap f := by
  induction l with
  | nil => rfl
  | cons b rest ih =>
    by_cases hb : b = a
    · rw [hb, List.erase_cons_head, List.filter_cons]
      split
      · rw [List.flatMap_cons, h, List.nil_append]
      · rfl
    · rw [List.erase_cons_tail (by simp [hb]), List.filter_cons, List.filter_cons]
      split
      · rw [List.flatMap_cons, List.flatMap_cons, ih]
      · exact ih

/-- To end a worker whose queue is empty loses nothing. -/
theorem pending_endWorker {x : Session} (hx : x.Wired) {v : Worker} (hv : v ∈ x.workers)
    (hq : x.bus.queue v.subscription = []) (g : InstallerId) :
    (x.endWorker v).pending g = x.pending g := by
  have hsame : ((x.workers.erase v).filter (·.isOf g)).flatMap
      (fun w => (x.endWorker v).bus.queue w.subscription) =
        ((x.workers.erase v).filter (·.isOf g)).flatMap fun w => x.bus.queue w.subscription := by
    refine List.flatMap_congr fun w hw => ?_
    have hne := hx.subscription_ne hv (List.mem_filter.mp hw).1
    simp only [Bus.queue, x.endWorker_get? hne]
  have hw : (x.endWorker v).workers = x.workers.erase v := rfl
  have he := flatMap_filter_erase (fun w : Worker => w.isOf g)
    (fun w => x.bus.queue w.subscription) hq x.workers
  rw [pending, hw, hsame, he]
  rfl

theorem nextWorker_mem (x : Session) (l : Listener) : x.nextWorker l ∈ (x.addWorker l).workers :=
  List.mem_append_right _ (List.mem_singleton_self _)

end Session

namespace Program

/-! ## Steps that deliver nothing -/

/-- The events that wait for an installer's listeners at a session. -/
def pending (s : Program) (g : InstallerId) (id : SessionId) : List Event :=
  ((s.session? id).map (·.pending g)).getD []

def Wired (s : Program) : Prop := ∀ id x, s.session? id = some x → x.Wired

def Connected (s : Program) : Prop := ∀ id x, s.session? id = some x → x.Connected

/-- From `s` to `t` no event is posted and none is delivered. -/
structure Quiet (s t : Program) : Prop where
  wired : s.Wired → t.Wired
  connected : s.Wired → s.Connected → t.Connected
  pending : s.Wired → ∀ g id, t.pending g id = s.pending g id

namespace Quiet

variable {s t u : Program}

theorem refl (s : Program) : Quiet s s := ⟨fun h => h, fun _ h => h, fun _ _ _ => rfl⟩

theorem trans (h : Quiet s t) (h' : Quiet t u) : Quiet s u :=
  ⟨fun hs => h'.wired (h.wired hs), fun hs hc => h'.connected (h.wired hs) (h.connected hs hc),
    fun hs g id => (h'.pending (h.wired hs) g id).trans (h.pending hs g id)⟩

theorem of_wiring_eq (h : t.sessions.map Session.wiring = s.sessions.map Session.wiring) :
    Quiet s t := by
  constructor
  · intro hs id y hy
    obtain ⟨x, hx, hxy⟩ := session?_of_map_eq h hy
    exact (hs id x hx).of_wiring_eq hxy.symm
  · intro _ hc id y hy
    obtain ⟨x, hx, hxy⟩ := session?_of_map_eq h hy
    exact (hc id x hx).of_wiring_eq hxy.symm
  · intro _ g id
    have hk := isSome_session?_of_map_eq h id
    simp only [Program.pending]
    cases hy : t.session? id with
    | none =>
      rw [hy] at hk
      have hn : s.session? id = none := Option.isNone_iff_eq_none.mp (by simpa using hk.symm)
      rw [hn]
    | some y =>
      obtain ⟨x, hx, hxy⟩ := session?_of_map_eq h hy
      rw [hx]
      exact Session.pending_of_wiring_eq hxy.symm g

theorem of_sessions_eq (h : t.sessions = s.sessions) : Quiet s t := of_wiring_eq (by rw [h])

theorem of_sessions_core_eq (h : t.sessions.map Session.core = s.sessions.map Session.core) :
    Quiet s t := by
  have hw := congrArg (Table.map Session.wiring) h
  simp only [Table.map, List.map_map] at hw
  exact of_wiring_eq (congrArg Table.mk (Table.mk.inj hw))

theorem of_core_eq (h : t.core = s.core) : Quiet s t :=
  of_sessions_core_eq (congrArg Program.sessions h :)

theorem of_modifySession {id : SessionId} {f : Session → Session}
    (h : t.sessions.map Session.core = (s.modifySession id f).sessions.map Session.core)
    (hf : ∀ x, s.session? id = some x → x.Wired →
      (f x).Wired ∧ (x.Connected → (f x).Connected) ∧ ∀ g, (f x).pending g = x.pending g) :
    Quiet s t := by
  suffices hq : Quiet s (s.modifySession id f) from hq.trans (of_sessions_core_eq h)
  constructor
  · intro hs id' y hy
    obtain ⟨x, hx, ⟨rfl, rfl⟩ | ⟨_, rfl⟩⟩ := modifySession_cases hy
    · exact (hf x hx (hs id' x hx)).1
    · exact hs id' y hx
  · intro hs hc id' y hy
    obtain ⟨x, hx, ⟨rfl, rfl⟩ | ⟨_, rfl⟩⟩ := modifySession_cases hy
    · exact (hf x hx (hs id' x hx)).2.1 (hc id' x hx)
    · exact hc id' y hx
  · intro hs g id'
    simp only [Program.pending, session?_modifySession]
    split
    · rename_i he
      cases hx : s.session? id' with
      | none => rfl
      | some x => exact (hf x (he ▸ hx) (hs id' x hx)).2.2 g
    · rfl

theorem start (s : Program) (id : SessionId) (settings : Settings) (backend : Backend) (home : Home) :
    Quiet s (s.start id settings backend home) := by
  obtain he | ⟨hn, x, hw, hb, _, _, he⟩ := start_cases s id settings backend home
  · rw [he]
    exact .refl s
  · rw [he]
    constructor
    · intro hs id' y hy
      rcases set_cases hy with ⟨_, rfl⟩ | ⟨_, hx⟩
      · constructor
        · rw [hw]
          exact List.Pairwise.nil
        · intro w hm
          rw [hw] at hm
          cases hm
        · rw [hb]
          exact List.Pairwise.nil
        · intro a ha
          rw [hb] at ha
          cases ha
      · exact hs id' y hx
    · intro _ hcon id' y hy
      rcases set_cases hy with ⟨_, rfl⟩ | ⟨_, hx⟩
      · intro w hm
        rw [hw] at hm
        cases hm
      · exact hcon id' y hx
    · intro _ g id'
      simp only [Program.pending, session?, Table.get?_set]
      split
      · rename_i heq
        simp only [session?] at hn
        rw [heq, hn, Option.map_some, Session.pending_of_none fun v hv => by rw [hw] at hv; cases hv]
        rfl
      · rfl

theorem forgetGone (g : InstallerId) (s : Program) : Quiet s (Program.forgetGone g s).2 :=
  .of_sessions_eq (forgetGone_fields g s).1

theorem of_addWorker {id : SessionId} {l : Listener}
    (h : t.sessions.map Session.core =
      (s.modifySession id (·.addWorker l)).sessions.map Session.core) : Quiet s t :=
  .of_modifySession h fun _ _ hw =>
    ⟨hw.addWorker l, fun hc => hc.addWorker hw l, Session.pending_addWorker hw l⟩

theorem attach (id : SessionId) (l : Listener) (s : Program) :
    Quiet s ((Program.attach id l).run s).2 := by
  obtain ⟨x, t, hx, hs, _, hr, ht⟩ | ⟨e, t, hr, ht⟩ | ⟨x, t, _, _, hr, ht⟩ := attach_ends id l s
  · rw [hr]
    exact .of_addWorker (congrArg Program.sessions ht :)
  · rw [hr]
    exact .of_core_eq ht
  · rw [hr]
    exact .of_core_eq ht

/-- An installation brings, and may take back, a listener to which nothing has been posted. -/
theorem installs {id : SessionId} {l : Listener} {e : Enricher}
    {r : Outcome InstallFailure ProcessorId} (h : Installs id l e s r u) : Quiet s u := by
  cases h with
  | refused _ _ hc | lostAtFirst _ _ _ _ hc => exact .of_core_eq hc
  | takenBack _ _ _ _ _ hc =>
    refine .of_modifySession (congrArg Program.sessions hc :) fun x _ hw => ?_
    have hm := x.nextWorker_mem l
    exact ⟨(hw.addWorker l).endWorker _, fun hcon => (hcon.addWorker hw l).endWorker (hw.addWorker l) hm,
      fun g => (Session.pending_endWorker (hw.addWorker l) hm (x.addWorker_queue l) g).trans
        (Session.pending_addWorker hw l g)⟩
  | stuck _ _ _ _ _ hc | lostLater _ _ _ _ _ _ hc => exact .of_addWorker (congrArg Program.sessions hc :)
  | completed _ _ _ _ hc => exact .of_addWorker (congrArg Program.sessions hc :)

theorem ensureInstalled {left : InstallerId → SessionId → Nat} (h : Sound left s) (g : InstallerId)
    (id : SessionId) : Quiet s ((Program.ensureInstalled g id).run s).2 := by
  obtain ⟨r, _, hrun, _⟩ | ⟨i, r, u, _, _, hin, _, hrun⟩ :=
    ensureInstalled_cases g id s (h.listener_lt id)
  · rw [hrun]
    exact .forgetGone g s
  · rw [hrun]
    have hres : Quiet s (reserved (Program.forgetGone g s).2 g id) :=
      (forgetGone g s).trans (.of_sessions_eq rfl)
    have hset : Quiet u (setStanding g id (standingAfter r) u) := .of_sessions_eq rfl
    exact (hres.trans (installs hin)).trans hset

end Quiet

end Program

/-- To end workers whose queues are empty, and to mark their session as stopped, loses nothing. -/
theorem Program.Quiet.emptied {id : SessionId} {t : Program} {y : Session} (hy : t.session? id = some y)
    (hempty : ∀ v ∈ y.workers, y.bus.queue v.subscription = []) :
    Quiet t (markStopped id
      (t.modifySession id fun session => session.workers.foldl Session.endWorker session)) := by
  have hend : Quiet t
      (t.modifySession id fun session => session.workers.foldl Session.endWorker session) := by
    refine .of_modifySession rfl fun x hx hw => ?_
    rw [hy] at hx
    cases hx
    obtain ⟨queues, hq⟩ := exists_foldl_endWorker y.workers y rfl
    rw [hq]
    refine ⟨⟨List.Pairwise.nil, nofun, hw.attached_nodup, hw.attached_lt⟩, fun _ => nofun, fun g => ?_⟩
    have hp : y.pending g = [] := by
      rw [Session.pending, List.flatMap_eq_nil_iff]
      exact fun w hm => hempty w (List.mem_filter.mp hm).1
    rw [hp]
    rfl
  refine hend.trans ?_
  obtain ⟨queues, hq⟩ := exists_foldl_endWorker y.workers y rfl
  have hz : (t.modifySession id fun session =>
      session.workers.foldl Session.endWorker session).session? id =
        some { y with workers := [], bus := { y.bus with queues } } := by
    rw [session?_modifySession, if_pos rfl, hy, Option.map_some, hq]
  generalize t.modifySession id (fun session =>
    session.workers.foldl Session.endWorker session) = u at hz
  unfold markStopped
  simp only [hz]
  split
  · exact .refl u
  · have hstop : Quiet u (u.modifySession id fun session =>
        { session with stopped := true, bus := session.bus.close }) := by
      refine .of_modifySession rfl fun x hx _ => ?_
      rw [hz] at hx
      cases hx
      exact ⟨⟨List.Pairwise.nil, nofun, List.Pairwise.nil, nofun⟩, fun _ => nofun, fun g => rfl⟩
    split
    · refine hstop.trans (.of_sessions_eq ?_)
      unfold clearActive
      split <;> rfl
    · exact hstop.trans (.of_modifySession rfl fun x _ hw =>
        ⟨hw.of_wiring_eq rfl, fun hc => hc.of_wiring_eq rfl, fun g => rfl⟩)

namespace World

theorem quiet_wiring {s : Program} {id : SessionId} {f : Session → Session}
    (hf : ∀ x, (f x).wiring = x.wiring) : Quiet s (s.modifySession id f) :=
  .of_wiring_eq (Table.map_modify _ _ hf)

end World

end SessionTrail

import SessionTrail.Proofs.Silence

/-!
# What a session is for good

The settings with which a session is started stay its settings, and so does its identity. Its backend is
only changed from outside. Only a stop takes it from running to stopped and from its place: that is told
for the whole program (`stop_program`). So is who comes to stand in the shared place and who leaves it
(`active_next`).
-/
namespace SessionTrail

open Program World

/-- A session as it is but for its workers and their events, for what calls do to it, and for who holds on to
it. -/
def Session.profile (x : Session) : Session := { x.outline with workers := [], added := 0, held := true }

theorem Session.profile_outline (x : Session) : x.outline.profile = x.profile := rfl

/-- A place of its own that a session has left. -/
def Home.left : Home → Home
  | .shared => .shared
  | .own _ => .own false

/-- A session that has lost its workers and its place and is stopped. -/
def Session.over (x : Session) (bus : Bus Event) : Session :=
  { x with
    workers := []
    bus
    stopped := true
    home := if x.stopped then x.home else x.home.left }

namespace Program

variable {s t u : Program} {id : SessionId}

/-- From `s` to `t` the sessions keep their profiles, and the same one stands in the shared place. -/
structure SameProfiles (s t : Program) : Prop where
  sessions : t.sessions.map Session.profile = s.sessions.map Session.profile
  active : t.active = s.active

namespace SameProfiles

theorem refl (s : Program) : SameProfiles s s := ⟨rfl, rfl⟩

theorem trans (h : SameProfiles s t) (h' : SameProfiles t u) : SameProfiles s u :=
  ⟨h'.sessions.trans h.sessions, h'.active.trans h.active⟩

theorem of_sessions_eq (hs : t.sessions = s.sessions) (ha : t.active = s.active) : SameProfiles s t :=
  ⟨by rw [hs], ha⟩

theorem of_outline_map_eq (hs : t.sessions.map Session.outline = s.sessions.map Session.outline)
    (ha : t.active = s.active) : SameProfiles s t := by
  refine ⟨?_, ha⟩
  have hp := congrArg (Table.map Session.profile) hs
  simpa only [Table.map, List.map_map, Function.comp_def, Session.profile_outline] using hp

theorem of_outline_eq (h : t.outline = s.outline) : SameProfiles s t :=
  of_outline_map_eq (congrArg Program.sessions h :) (congrArg Program.active h :)

theorem of_core_eq (h : t.core = s.core) : SameProfiles s t := of_outline_eq (outline_eq_of_core_eq h)

theorem of_thins (h : Thins s t) : SameProfiles s t := by
  refine of_outline_map_eq ?_ (congrArg Program.active h.body_eq :)
  have ho := congrArg (Table.map Session.outline) (congrArg Program.sessions h.body_eq :)
  simpa only [Program.body, Program.core, Table.map, List.map_map, Function.comp_def,
    Session.outline_core] using ho

theorem of_modifySession {f : Session → Session} (hf : ∀ x, (f x).profile = x.profile) :
    SameProfiles s (s.modifySession id f) :=
  ⟨Table.map_modify _ _ hf, rfl⟩

theorem of_modifySession_outline {f : Session → Session} (h : t.outline = (s.modifySession id f).outline)
    (hf : ∀ x, (f x).profile = x.profile) : SameProfiles s t :=
  .trans (of_modifySession hf) (of_outline_eq h)

theorem attach (id : SessionId) (l : Listener) (s : Program) :
    SameProfiles s ((Program.attach id l).run s).2 := by
  obtain ho | ⟨x, _, _, ho⟩ := attach_outline id l s
  · exact of_outline_eq ho
  · exact of_modifySession_outline ho fun _ => rfl

theorem detach (id : SessionId) (l : Listener) (s : Program) :
    SameProfiles s ((Program.detach id l).run s).2 := by
  obtain ho | ⟨x, v, _, _, _, ho⟩ := detach_outline id l s
  · exact of_outline_eq ho
  · exact of_modifySession_outline ho fun _ => rfl

theorem of_installs {l : Listener} {e : Enricher} {r : Outcome InstallFailure ProcessorId}
    (h : Installs id l e s r u) : SameProfiles s u := by
  cases h with
  | refused _ _ hc | lostAtFirst _ _ _ _ hc => exact of_core_eq hc
  | takenBack _ _ _ _ _ hc | stuck _ _ _ _ _ hc | lostLater _ _ _ _ _ _ hc =>
    exact of_modifySession_outline (outline_eq_of_core_eq hc) fun _ => rfl
  | completed _ _ _ _ hc =>
    have hm : SameProfiles s (s.modifySession id (·.addWorker l)) := of_modifySession fun _ => rfl
    have hr : SameProfiles (s.modifySession id (·.addWorker l))
        ((s.modifySession id (·.addWorker l)).register (.enricher e)).2 := of_sessions_eq rfl rfl
    exact hm.trans (hr.trans (of_core_eq hc))

theorem forgetGone (g : InstallerId) (s : Program) : SameProfiles s (Program.forgetGone g s).2 :=
  of_sessions_eq (forgetGone_fields g s).1 (forgetGone_fields g s).2.1

theorem ensureInstalled {left : InstallerId → SessionId → Nat} (h : Sound left s) (g : InstallerId)
    (id : SessionId) : SameProfiles s ((Program.ensureInstalled g id).run s).2 := by
  obtain ⟨r, _, hrun, _⟩ | ⟨i, r, u, _, _, hin, _, hrun⟩ :=
    ensureInstalled_cases g id s (h.listener_lt id) <;> rw [hrun]
  · exact forgetGone g s
  · have hr : SameProfiles (Program.forgetGone g s).2 (reserved (Program.forgetGone g s).2 g id) :=
      of_sessions_eq rfl rfl
    exact (forgetGone g s).trans (hr.trans ((of_installs hin).trans (of_sessions_eq rfl rfl)))

theorem session? (h : SameProfiles s t) {x : Session} (hx : s.session? id = some x) :
    ∃ y, t.session? id = some y ∧ y.profile = x.profile :=
  session?_of_map_eq h.sessions.symm hx

end SameProfiles

/-! ## Stopping a session -/

/-- Whether a session runs and stands, if anywhere, in the shared place. -/
def runsShared (s : Program) (id : SessionId) : Bool :=
  (s.session? id).any fun x => !x.stopped && x.home = .shared

theorem runsShared_iff : s.runsShared id = true ↔
    ∃ x, s.session? id = some x ∧ x.stopped = false ∧ x.home = .shared := by
  rw [runsShared]
  cases s.session? id with
  | none => simp
  | some x => simp

theorem modifySession_of_some {x : Session} (hx : s.session? id = some x) (f : Session → Session) :
    s.modifySession id f = { s with sessions := s.sessions.set id (f x) } := by
  simp only [session?] at hx
  simp only [modifySession, Table.modify, hx]

theorem clearActive_program (s : Program) (id : SessionId) :
    (s.clearActive id).2 = { s with active := if s.active = some id then none else s.active } := by
  unfold clearActive
  split <;> rfl

/-- To mark a session as stopped that has lost its workers is to make it one that is over, and to empty the
shared place if it runs and stands there. -/
theorem markStopped_program {x : Session} (hx : s.session? id = some x) (hw : x.workers = []) :
    ∃ bus, markStopped id s = { s with
      sessions := s.sessions.set id (x.over bus)
      active := if s.runsShared id ∧ s.active = some id then none else s.active } := by
  cases hs : x.stopped with
  | true =>
    have hruns : s.runsShared id = false := by
      rw [runsShared, hx, Option.any_some, hs]
      rfl
    have hover : x.over x.bus = x := by
      cases x
      simp only at hs hw
      subst hs hw
      rfl
    refine ⟨x.bus, ?_⟩
    rw [hover, Table.set_of_get? hx, hruns]
    simp only [markStopped, hx, hs, if_true, Bool.false_eq_true, false_and, if_false]
  | false =>
    have hstop := modifySession_of_some hx fun x : Session => { x with stopped := true, bus := x.bus.close }
    refine ⟨x.bus.close, ?_⟩
    unfold markStopped
    simp only [hx, hs, Bool.false_eq_true, if_false]
    rw [hstop]
    cases hh : x.home with
    | shared =>
      have hruns : s.runsShared id = true := by
        rw [runsShared, hx, Option.any_some, hs, hh]
        rfl
      have hover : x.over x.bus.close =
          { x with stopped := true, bus := x.bus.close, home := .shared } := by
        rw [Session.over, hs, hw, hh]
        rfl
      simp only [clearActive_program, hruns, true_and, hover]
    | own entered =>
      have hruns : s.runsShared id = false := by
        rw [runsShared, hx, Option.any_some, hs, hh]
        rfl
      have hover : x.over x.bus.close =
          { x with stopped := true, bus := x.bus.close, home := .own false } := by
        rw [Session.over, hs, hw, hh]
        rfl
      have hown : ∀ y : Session, ({ s with sessions := s.sessions.set id y } : Program).session? id = some y :=
        fun y => Table.get?_set_self ..
      rw [modifySession_of_some (hown _)]
      simp only [Table.set_set, hruns, Bool.false_eq_true, false_and, if_false, hover]

/-- To stop a session is to deliver what is queued there, to make it one that is over, and to empty the
shared place if it runs and stands there. Nothing else changes. -/
theorem stop_program {z : Session} (hz : (settle id s).2.session? id = some z) :
    ∃ bus, (stop id s).2 = { (settle id s).2 with
      sessions := (settle id s).2.sessions.set id (z.over bus)
      active := if s.runsShared id ∧ s.active = some id then none else s.active } := by
  have hout := settle_outline id s
  have hactive : (settle id s).2.active = s.active := (congrArg Program.active hout :)
  obtain ⟨queues, hend⟩ := exists_foldl_endWorker z.workers z rfl
  have hset := modifySession_of_some hz fun x => x.workers.foldl Session.endWorker x
  rw [hend] at hset
  obtain ⟨bus, hmark⟩ := markStopped_program (s := { (settle id s).2 with
    sessions := (settle id s).2.sessions.set id
      { z with workers := [], bus := { z.bus with queues } } }) (Table.get?_set_self ..) rfl
  have hruns : runsShared { (settle id s).2 with
      sessions := (settle id s).2.sessions.set id
        { z with workers := [], bus := { z.bus with queues } } } id = s.runsShared id := by
    obtain ⟨x, hx, hxz⟩ := session?_of_map_eq (congrArg Program.sessions hout :) hz
    have hstopped : z.stopped = x.stopped := (congrArg Session.stopped hxz :).symm
    have hhome : z.home = x.home := (congrArg Session.home hxz :).symm
    rw [runsShared, runsShared, session?, Table.get?_set_self, hx, Option.any_some, Option.any_some]
    simp only [hstopped, hhome]
  refine ⟨bus, ?_⟩
  change markStopped id ((settle id s).2.modifySession id _) = _
  rw [hset, hmark, hruns]
  simp only [Table.set_set, hactive]
  rfl

theorem stop_of_none (h : s.session? id = none) : (stop id s).2 = s := by
  have hsettle : settle id s = ([], s) := by
    simp only [settle, flush, h]
  change markStopped id ((settle id s).2.modifySession id _) = _
  rw [hsettle, modifySession_of_none h]
  simp only [markStopped, h]

theorem active_stop (id : SessionId) (s : Program) : (stop id s).2.active =
    if s.runsShared id ∧ s.active = some id then none else s.active := by
  cases hz : (settle id s).2.session? id with
  | none =>
    have hx : s.session? id = none := by
      have hk := isSome_session?_of_map_eq (congrArg Program.sessions (settle_outline id s) :) id
      rw [hz] at hk
      exact Option.isNone_iff_eq_none.mp (by simpa using hk.symm)
    rw [stop_of_none hx, runsShared, hx]
    simp
  | some z =>
    obtain ⟨bus, hstop⟩ := stop_program hz
    rw [hstop]

/-- A session that is stopped keeps its settings, its identity and its backend, and so does every other one,
which also goes on as it was. -/
theorem session?_stop (id : SessionId) {id' : SessionId} {x : Session} (hx : s.session? id' = some x) :
    ∃ y, (stop id s).2.session? id' = some y ∧ y.settings = x.settings ∧
      y.applicationId = x.applicationId ∧ y.backend = x.backend ∧
      (id' ≠ id → y.profile = x.profile) := by
  obtain ⟨z, hz, hzx⟩ := (SameProfiles.of_outline_eq (settle_outline id s)).session? hx
  have hsettings : z.settings = x.settings := (congrArg Session.settings hzx :)
  have happ : z.applicationId = x.applicationId := (congrArg Session.applicationId hzx :)
  have hback : z.backend = x.backend := (congrArg Session.backend hzx :)
  by_cases he : id' = id
  · subst he
    obtain ⟨bus, hstop⟩ := stop_program hz
    refine ⟨z.over bus, ?_, hsettings, happ, hback, fun hne => absurd rfl hne⟩
    rw [hstop]
    exact Table.get?_set_self ..
  · exact ⟨z, (session?_emptied_of_ne _ he).trans hz, hsettings, happ, hback, fun _ => hzx⟩

end Program

/-! ## Operations -/

/-- Whether an operation does nothing to profiles and to who stands in the shared place. -/
def Operation.keepsProfiles : Operation → Bool
  | .start .. | .stop _ | .setBackend .. | .makeActive _ | .clearActive _ => false
  | _ => true

/-- The session that comes to stand in the shared place. -/
def Operation.entered : Operation → World → Option SessionId
  | .start id _ _ detached, w =>
    if detached ∨ w.program.sessions.contains id then none else some id
  | .makeActive id, w => if w.program.isReachable id then some id else none
  | _, _ => none

/-- The session that leaves the shared place, should it stand there. -/
def Operation.left : Operation → World → Option SessionId
  | .stop id, w => if w.program.isReachable id ∧ w.program.runsShared id then some id else none
  | .clearActive id, _ => some id
  | _, _ => none

namespace World

variable {w : World} {left : InstallerId → SessionId → Nat} {id : SessionId}

theorem sameProfiles_next (h : w.Sound left) {o : Operation} (ho : o.keepsProfiles = true) :
    SameProfiles w.program (o.next w).program := by
  cases o with
  | start | stop | setBackend | makeActive | clearActive => cases ho
  | tick | newListener | enable | disable | leave | clearCrumbs | register | unregister | newInstaller
  | newIntegration => exact .of_sessions_eq rfl rfl
  | release id => exact .of_modifySession fun _ => rfl
  | read id a =>
    exact through_preserves (.refl _) (.of_core_eq (onSession_keeps_core id (Session.read_keeps_core a) _))
  | write id key value =>
    exact through_preserves (.refl _)
      (.of_core_eq (onSession_keeps_core id (Session.write_keeps_core key value) _))
  | post id e =>
    exact through_preserves (.refl _)
      (.of_outline_eq (onSession_keeps_outline id (Session.post_keeps_outline e) _))
  | turn id number =>
    simp only [Operation.next]
    split
    · exact .of_outline_eq (turn_outline id _ _)
    · exact .refl _
  | attach id l =>
    simp only [Operation.next]
    split
    · exact through_preserves (.refl _) (.attach id l _)
    · exact .refl _
  | detach id l =>
    simp only [Operation.next]
    split
    · exact through_preserves (.refl _) (.detach id l _)
    · exact .refl _
  | submit report hint => exact .of_thins (submit_thins report hint _)
  | ensureInstalled g id => exact ensureInstalled_preserves g id (.refl _) (.ensureInstalled h.program g id)
  | forgetGone g => exact forgetGone_preserves g (.refl _) (.forgetGone g _)
  | setUp i =>
    exact setUp_preserves w i (.refl _) (fun _ => .of_sessions_eq rfl rfl)
      (fun config id hk => hk.trans (.ensureInstalled (h.program.newInstaller config) _ id))
      fun _ _ hk => hk.trans (.of_sessions_eq rfl rfl)

/-- Where nobody comes and nobody leaves, whoever stands in the shared place goes on to do so. -/
private theorem active_of_same {o : Operation} (ha : (o.next w).program.active = w.program.active)
    (hentered : o.entered w = none) (hleft : o.left w = none) : (o.next w).program.active =
      (o.entered w).or (if o.left w = w.program.active then none else w.program.active) := by
  rw [ha, hentered, hleft]
  cases w.program.active <;> rfl

/-- Who stands in the shared place is who came last, unless that one left. -/
theorem active_next (h : w.Sound left) (o : Operation) : (o.next w).program.active =
    (o.entered w).or (if o.left w = w.program.active then none else w.program.active) := by
  cases o with
  | start id settings backend detached =>
    by_cases hkeep : detached = true ∨ w.program.sessions.contains id = true
    · refine active_of_same ?_ (if_pos hkeep) rfl
      simp only [Operation.next, update, start]
      rcases hkeep with rfl | hc
      · split <;> rfl
      · rw [if_pos hc]
    · have hentered : (Operation.start id settings backend detached).entered w = some id := if_neg hkeep
      obtain ⟨hd, hc⟩ := not_or.mp hkeep
      rw [hentered, Option.some_or]
      simp only [Operation.next, update, start, if_neg hd, if_neg hc, if_true]
  | stop id =>
    by_cases hr : w.program.isReachable id = true ∧ w.program.runsShared id = true
    · have hleft : (Operation.stop id).left w = some id := if_pos hr
      have hentered : (Operation.stop id).entered w = none := rfl
      rw [hleft, (stop_of_reachable hr.1).1, active_stop, hentered, Option.none_or]
      simp only [hr.2, true_and, eq_comm]
    · refine active_of_same ?_ rfl (if_neg hr)
      simp only [Operation.next]
      unfold through
      split
      · rename_i hreach
        exact (active_stop id _).trans (if_neg fun hand => hr ⟨hreach, hand.1⟩)
      · rfl
  | makeActive id =>
    by_cases hr : w.program.isReachable id = true
    · have hentered : (Operation.makeActive id).entered w = some id := if_pos hr
      rw [hentered, Option.some_or]
      simp only [Operation.next, through, if_pos hr]
      rfl
    · refine active_of_same ?_ (if_neg hr) rfl
      simp only [Operation.next, through, if_neg hr]
  | clearActive id =>
    have hleft : (Operation.clearActive id).left w = some id := rfl
    have hentered : (Operation.clearActive id).entered w = none := rfl
    rw [hleft, hentered, Option.none_or]
    simp only [Operation.next, update, clearActive_program, eq_comm]
  | setBackend => exact active_of_same rfl rfl rfl
  | _ => exact active_of_same (sameProfiles_next h rfl).active rfl rfl

/-- Whatever is done, a session keeps its settings and its identity. Only from outside it is given
another backend, and only a stop has it stop or leave its place. -/
theorem session?_next (h : w.Sound left) (o : Operation) {x : Session}
    (hx : w.program.session? id = some x) :
    ∃ y, (o.next w).program.session? id = some y ∧ y.settings = x.settings ∧
      y.applicationId = x.applicationId ∧ ((∀ b, o ≠ .setBackend id b) → y.backend = x.backend) ∧
      (o ≠ .stop id → y.stopped = x.stopped ∧ y.home = x.home) := by
  have same : ∀ {y : Session}, y.profile = x.profile → y.settings = x.settings ∧
      y.applicationId = x.applicationId ∧ ((∀ b, o ≠ .setBackend id b) → y.backend = x.backend) ∧
      (o ≠ .stop id → y.stopped = x.stopped ∧ y.home = x.home) := fun hy =>
    ⟨(congrArg Session.settings hy :), (congrArg Session.applicationId hy :),
      fun _ => (congrArg Session.backend hy :),
      fun _ => ⟨(congrArg Session.stopped hy :), (congrArg Session.home hy :)⟩⟩
  cases ho : o.keepsProfiles with
  | true =>
    obtain ⟨y, hy, hyx⟩ := (sameProfiles_next h ho).session? hx
    exact ⟨y, hy, same hyx⟩
  | false =>
    cases o with
    | start id' settings backend detached =>
      refine ⟨x, ?_, same rfl⟩
      obtain he | ⟨hn, z, _, _, _, _, he⟩ := start_cases w.program id' settings backend
        (if detached then .own true else .shared)
      · exact (congrArg (Program.session? · id) he).trans hx
      · have hne : id ≠ id' := fun he' => by
          rw [← he', hx] at hn
          cases hn
        refine (congrArg (Program.session? · id) he).trans ?_
        exact (Table.get?_set_of_ne _ _ hne).trans hx
    | stop id' =>
      simp only [Operation.next, through]
      split
      · obtain ⟨y, hy, hsettings, happ, hback, hother⟩ := session?_stop id' hx
        refine ⟨y, hy, hsettings, happ, fun _ => hback, fun hne => ?_⟩
        have hp := hother fun he => hne (congrArg Operation.stop he.symm)
        exact ⟨(congrArg Session.stopped hp :), (congrArg Session.home hp :)⟩
      · exact ⟨x, hx, same rfl⟩
    | setBackend id' backend =>
      have hy := session?_modifySession w.program id' id (·.withBackend backend)
      rw [hx] at hy
      by_cases he : id = id'
      · subst he
        rw [if_pos rfl] at hy
        exact ⟨_, hy, rfl, rfl, fun hne => absurd rfl (hne backend), fun _ => ⟨rfl, rfl⟩⟩
      · rw [if_neg he] at hy
        exact ⟨x, hy, same rfl⟩
    | makeActive id' =>
      refine ⟨x, ?_, same rfl⟩
      simp only [Operation.next, through]
      split <;> exact hx
    | clearActive id' => exact ⟨x, (session?_clearActive w.program id' id).trans hx, same rfl⟩
    | _ => cases ho

end World

end SessionTrail

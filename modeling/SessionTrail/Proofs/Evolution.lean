import SessionTrail.Proofs.Enrichers
import SessionTrail.Proofs.Trouble

/-!
# What becomes of sessions

Whatever happens in a program, only few things become of what a session shows of itself: it loses workers, it
is given a worker, or its identity is written into its properties by a listener with a prefix. A relation that
admits these is kept by all that listeners and installers do, and by submissions and stops.
-/
namespace SessionTrail

open Program World

/-- A listener that leaves a trail writes with one of the prefixes `P`. -/
def Listener.Fits (P : String → Prop) (l : Listener) : Prop := ∀ p, l.behaviour = .trail p → P p

/-! ## Sessions -/

namespace Session

variable {P Q : String → Prop} {R : Session → Session → Prop} {x y : Session} {keyPrefix : String}

/-- The listeners of a session write with some of the prefixes `P`. -/
def Fits (P : String → Prop) (x : Session) : Prop := ∀ v ∈ x.workers, v.listener.Fits P

theorem Fits.mono (h : x.Fits P) (hpq : ∀ p, P p → Q p) : x.Fits Q :=
  fun v hv p hp => hpq p (h v hv p hp)

/-- A session as it shows its identity: its properties, the facts about it, and its workers. -/
def face (x : Session) : Session :=
  { x with
    bus := {}
    added := 0
    writes := 0
    stopped := false
    history := []
    log := []
    held := true
    home := .shared }

theorem consult_keeps_face (c : Call) : (consult c).Keeps face := by
  intro x
  change (consult c x).2.face = x.face
  unfold consult
  split <;> rfl

theorem attempt_keeps_face (c : Call) : (attempt c).Keeps face := by
  refine (consult_keeps_face c).bind fun _ => Action.keeps_get.bind fun x => ?_
  split
  · exact Action.keeps_fail _
  · exact Action.keeps_pure _

theorem read_keeps_face (a : Attribute) : (read a).Keeps face :=
  (attempt_keeps_face _).bind fun _ => Action.keeps_get.bind fun _ => Action.keeps_pure _

theorem post_keeps_face (e : Event) : (post e).Keeps face := by
  intro x
  cases hx : x.stopped with
  | true => rw [run_post_of_stopped e hx]
  | false =>
    rw [run_post_of_running e hx]
    rfl

/-- From any session the relation admits all that can become of one whose listeners write with the
prefixes `P`. -/
structure Admits (P : String → Prop) (R : Session → Session → Prop) : Prop where
  refl : ∀ x, R x x
  trans : ∀ {x y z}, R x y → R y z → R x z
  fewer : ∀ {x y : Session}, y.properties = x.properties → y.fact = x.fact →
    (∀ v ∈ y.workers, v ∈ x.workers) → R x y
  attached : ∀ x {l : Listener}, l.Fits P → R x (x.addWorker l)
  written : ∀ x {keyPrefix : String}, P keyPrefix → R x ((writeIdentity keyPrefix).run x).2
  fits : ∀ {x y}, R x y → x.Fits P → y.Fits P

namespace Admits

theorem same (h : Admits P R) (hf : y.face = x.face) : R x y :=
  h.fewer (congrArg Session.properties hf :) (congrArg Session.fact hf :) fun _ hv =>
    (show y.workers = x.workers from (congrArg Session.workers hf :)) ▸ hv

theorem attach (h : Admits P R) {l : Listener} (hl : l.Fits P) (x : Session) :
    R x ((Session.attach l).run x).2 := by
  rw [run_attach]
  cases x.troubleWith .attach with
  | some t => exact h.same rfl
  | none => exact h.trans (y := x.note .attach) (h.same rfl) (h.attached _ hl)

end Admits

end Session

/-! ## Programs -/

namespace Program

variable {P Q : String → Prop} {R : Session → Session → Prop} {s t u : Program} {id : SessionId}
  {keyPrefix : String}

/-- The listeners of all sessions write with some of the prefixes `P`. -/
def Fits (P : String → Prop) (s : Program) : Prop := ∀ id x, s.session? id = some x → x.Fits P

theorem Fits.mono (h : s.Fits P) (hpq : ∀ p, P p → Q p) : s.Fits Q :=
  fun id x hx => (h id x hx).mono hpq

/-- From `s` to `t` every session becomes what the relation says, as does every one that is added and has
neither properties nor workers at first. -/
structure Evolves (R : Session → Session → Prop) (s t : Program) : Prop where
  kept : ∀ id x, s.session? id = some x → ∃ y, t.session? id = some y ∧ R x y
  added : ∀ id y, t.session? id = some y → s.session? id = none →
    ∃ x : Session, x.properties = .empty ∧ x.workers = [] ∧ R x y

namespace Evolves

theorem fits (h : Evolves R s t) (ha : Session.Admits P R) (hs : s.Fits P) : t.Fits P := by
  intro id y hy
  cases hx : s.session? id with
  | none =>
    obtain ⟨x, _, hw, hxy⟩ := h.added id y hy hx
    exact ha.fits hxy fun v hv => by rw [hw] at hv; cases hv
  | some x =>
    obtain ⟨y', hy', hxy⟩ := h.kept id x hx
    rw [hy] at hy'
    cases hy'
    exact ha.fits hxy (hs id x hx)

theorem of_faces_eq (ha : Session.Admits P R)
    (h : t.sessions.map Session.face = s.sessions.map Session.face) : Evolves R s t := by
  refine ⟨fun id x hx => ?_, fun id y hy hn => ?_⟩
  · obtain ⟨y, hy, hyx⟩ := session?_of_map_eq h.symm hx
    exact ⟨y, hy, ha.same hyx⟩
  · obtain ⟨x, hx, _⟩ := session?_of_map_eq h hy
    rw [hx] at hn
    cases hn

theorem of_sessions_eq (ha : Session.Admits P R) (h : t.sessions = s.sessions) : Evolves R s t :=
  of_faces_eq ha (by rw [h])

theorem refl (ha : Session.Admits P R) (s : Program) : Evolves R s s := of_sessions_eq ha rfl

theorem trans (ha : Session.Admits P R) (h : Evolves R s t) (h' : Evolves R t u) : Evolves R s u := by
  refine ⟨fun id x hx => ?_, fun id z hz hn => ?_⟩
  · obtain ⟨y, hy, hxy⟩ := h.kept id x hx
    obtain ⟨z, hz, hyz⟩ := h'.kept id y hy
    exact ⟨z, hz, ha.trans hxy hyz⟩
  · cases hy : t.session? id with
    | none => exact h'.added id z hz hy
    | some y =>
      obtain ⟨z', hz', hyz⟩ := h'.kept id y hy
      rw [hz] at hz'
      cases hz'
      obtain ⟨x, hp, hw, hxy⟩ := h.added id y hy hn
      exact ⟨x, hp, hw, ha.trans hxy hyz⟩

section

variable (ha : Session.Admits P R)

include ha

/-- Only one session changes. -/
theorem of_session {x y : Session} (hx : s.session? id = some x) (hy : t.session? id = some y)
    (hxy : R x y) (others : ∀ id', id' ≠ id → t.session? id' = s.session? id') : Evolves R s t := by
  refine ⟨fun id' z hz => ?_, fun id' z hz hn => ?_⟩
  · by_cases he : id' = id
    · subst he
      rw [hx] at hz
      cases hz
      exact ⟨y, hy, hxy⟩
    · exact ⟨z, (others id' he).trans hz, ha.refl z⟩
  · by_cases he : id' = id
    · rw [he, hx] at hn
      cases hn
    · rw [others id' he, hn] at hz
      cases hz

theorem modifySession {f : Session → Session} (h : ∀ x, s.session? id = some x → R x (f x)) :
    Evolves R s (s.modifySession id f) := by
  cases hx : s.session? id with
  | none =>
    rw [modifySession_of_none hx]
    exact refl ha s
  | some x =>
    refine of_session ha hx (y := f x) ?_ (h x hx) fun id' he => ?_
    · rw [session?_modifySession, if_pos rfl, hx, Option.map_some]
    · rw [session?_modifySession, if_neg he]

theorem onSession {α : Type} {m : Action Session CallError α}
    (h : ∀ x, s.session? id = some x → R x (m.run x).2) :
    Evolves R s ((Program.onSession id m).run s).2 := by
  cases hx : s.session? id with
  | none =>
    rw [run_onSession_of_none hx]
    exact refl ha s
  | some x =>
    rw [run_onSession hx]
    exact of_session ha hx (Table.get?_set_self ..) (h x hx) fun id' he => Table.get?_set_of_ne _ _ he

theorem onSession_of_keeps {α : Type} {m : Action Session CallError α} (h : m.Keeps Session.face) :
    Evolves R s ((Program.onSession id m).run s).2 :=
  onSession ha fun x _ => ha.same (h x)

theorem start (s : Program) (id : SessionId) (settings : Settings) (backend : Backend) (home : Home) :
    Evolves R s (s.start id settings backend home) := by
  cases hc : s.sessions.contains id with
  | true =>
    simp only [Program.start, hc, if_true]
    exact refl ha s
  | false =>
    have hn : s.session? id = none := by simpa [Table.contains, session?] using hc
    simp only [Program.start, hc, Bool.false_eq_true, if_false]
    refine ⟨fun id' x hx => ?_, fun id' y hy hn' => ?_⟩
    · have hne : id' ≠ id := fun he => by
        rw [he, hn] at hx
        cases hx
      exact ⟨x, (Table.get?_set_of_ne _ _ hne).trans hx, ha.refl x⟩
    · obtain ⟨_, rfl⟩ | ⟨_, hy⟩ := set_cases hy
      · exact ⟨_, rfl, rfl, ha.refl _⟩
      · rw [hn'] at hy
        cases hy

/-! ### Deliveries -/

theorem writeIdentity (hp : P keyPrefix) (active : Option SessionId) :
    Evolves R s ((Program.writeIdentity keyPrefix active).run s).2 := by
  cases active with
  | none => exact refl ha s
  | some id => exact onSession ha fun x _ => ha.written x hp

theorem refreshIdentity (hp : P keyPrefix) :
    Evolves R s ((Program.refreshIdentity keyPrefix).run s).2 := by
  have h : Evolves R s ((Program.writeIdentity keyPrefix s.active).run s).2 := writeIdentity ha hp _
  change Evolves R s (Program.refreshIdentity keyPrefix s).2
  unfold Program.refreshIdentity
  rcases hr : (Program.writeIdentity keyPrefix s.active).run s with ⟨_ | ⟨_ | _⟩ | _, t⟩ <;>
    (rw [hr] at h; exact h)

theorem trail (hp : P keyPrefix) (e : Event) : Evolves R s ((Program.trail keyPrefix e).run s).2 := by
  change Evolves R s (Program.trail keyPrefix e s).2
  unfold Program.trail
  split
  · exact refl ha s
  · exact refl ha s
  · rename_i note _
    have hleave : Evolves R s (s.leave (note.crumb s.now)) := of_sessions_eq ha rfl
    split
    · exact hleave.trans ha (refreshIdentity ha hp)
    · exact hleave

/-- Whatever session is active, a listener writes nothing but that session's own identity there. -/
theorem notify {l : Listener} (hl : l.Fits P) (e : Event) :
    Evolves R s ((Program.notify l e).run s).2 := by
  cases hb : l.behaviour with
  | silent =>
    simp only [Program.notify, hb]
    exact refl ha s
  | trail keyPrefix =>
    simp only [Program.notify, hb]
    exact trail ha (hl keyPrefix hb) e
  | recorder answers =>
    simp only [Program.notify, hb, Action.run_bind, Action.run_modify]
    cases answers.get? e.kind <;> exact of_sessions_eq ha rfl

theorem turn {v : Worker} (hv : v.listener.Fits P) : Evolves R s (Program.turn id v s).2 := by
  cases hx : s.session? id with
  | none =>
    rw [turn_of_empty fun x h => by rw [hx] at h; cases h]
    exact refl ha s
  | some x =>
    cases hq : x.bus.queue v.subscription with
    | nil =>
      rw [turn_of_empty fun y h => by rw [hx] at h; cases h; exact hq]
      exact refl ha s
    | cons e rest =>
      rw [turn_of_queue hx hq]
      have hbus : Evolves R s (s.modifySession id (·.withBus (x.bus.receive v.subscription).2)) :=
        modifySession ha fun y _ => ha.same rfl
      have hn := hbus.trans ha (notify ha hv e)
      simp only
      split
      · exact hn.trans ha (modifySession ha fun y _ => ha.same rfl)
      · exact hn

theorem round {workers : List Worker} (hw : ∀ v ∈ workers, v.listener.Fits P) :
    Evolves R s (Program.round id workers s).2 := by
  induction workers generalizing s with
  | nil => exact refl ha s
  | cons v rest ih =>
    exact (turn ha (hw v List.mem_cons_self)).trans ha (ih fun w hm => hw w (List.mem_cons_of_mem _ hm))

theorem rounds {workers : List Worker} (hw : ∀ v ∈ workers, v.listener.Fits P) (n : Nat) :
    Evolves R s (Program.rounds id workers n s).2 := by
  induction n generalizing s with
  | zero => exact refl ha s
  | succ n ih => exact (round ha hw).trans ha ih

theorem flush {workers : List Worker} (hw : ∀ v ∈ workers, v.listener.Fits P) :
    Evolves R s (Program.flush id workers s).2 := by
  unfold Program.flush
  split
  · exact rounds ha hw _
  · exact refl ha s

theorem markStopped (id : SessionId) (s : Program) : Evolves R s (Program.markStopped id s) := by
  unfold Program.markStopped
  split
  · exact refl ha s
  · split
    · exact refl ha s
    · rename_i session _ _
      have hstop : Evolves R s (s.modifySession id fun session =>
          { session with stopped := true, bus := session.bus.close }) :=
        modifySession ha fun _ _ => ha.same rfl
      simp only
      split
      · refine hstop.trans ha (of_sessions_eq ha ?_)
        unfold Program.clearActive
        split <;> rfl
      · exact hstop.trans ha (modifySession ha fun _ _ => ha.same rfl)

theorem stop (h : s.Fits P) (id : SessionId) : Evolves R s (Program.stop id s).2 := by
  have hset : Evolves R s (Program.settle id s).2 := by
    refine flush ha fun v hv => ?_
    cases hx : s.session? id with
    | none =>
      rw [hx] at hv
      cases hv
    | some x =>
      rw [hx] at hv
      exact h id x hx v hv
  refine hset.trans ha (.trans ha (modifySession ha fun x _ => ?_) (markStopped ha id _))
  obtain ⟨queues, hq⟩ := exists_foldl_endWorker x.workers x rfl
  rw [hq]
  exact ha.fewer rfl rfl fun v hv => by cases hv

theorem endWorkerOf (h : s.Fits P) (id : SessionId) (l : ListenerId) :
    Evolves R s (Program.endWorkerOf id l s).2 := by
  unfold Program.endWorkerOf
  cases hv : (s.session? id).bind (·.workerOf? l) with
  | none => exact refl ha s
  | some v =>
    obtain ⟨x, hx, hf⟩ := Option.bind_eq_some_iff.mp hv
    have hfits := h id x hx v (List.mem_of_find?_eq_some hf)
    refine (flush ha fun w hw => ?_).trans ha
      (modifySession ha fun y _ => ha.fewer rfl rfl fun w hw => List.mem_of_mem_erase hw)
    rw [List.mem_singleton.mp hw]
    exact hfits

theorem detach (h : s.Fits P) (id : SessionId) (l : Listener) :
    Evolves R s ((Program.detach id l).run s).2 := by
  have hc : Evolves R s ((Program.onSession id (Session.consult .detach)).run s).2 :=
    onSession_of_keeps ha (Session.consult_keeps_face .detach)
  rw [run_detach]
  rcases hr : (Program.onSession id (Session.consult .detach)).run s with ⟨_ | _ | _, t⟩ <;> rw [hr] at hc
  · exact hc.trans ha (endWorkerOf ha (hc.fits ha h) id l.id)
  · exact hc
  · exact hc

/-! ### Installations -/

theorem attach {l : Listener} (hl : l.Fits P) (id : SessionId) :
    Evolves R s ((Program.attach id l).run s).2 :=
  onSession ha fun x _ => ha.attach hl x

theorem rollBack (h : s.Fits P) (id : SessionId) (l : Listener) (error : CallError) :
    Evolves R s ((Program.rollBack id l error).run s).2 := by
  have hd := detach ha h id l
  rw [run_rollBack]
  rcases hr : (Program.detach id l).run s with ⟨_ | _ | _, t⟩ <;> rw [hr] at hd <;> exact hd

theorem install {config : Config} (h : s.Fits P) (hp : P config.keyPrefix) (g : InstallerId)
    (id : SessionId) : Evolves R s ((Program.install g config id).run s).2 := by
  obtain ⟨l, hl⟩ : ∃ l, l = (s.newListener (.trail config.keyPrefix) (some g)).1 := ⟨_, rfl⟩
  have hfits : l.Fits P := fun p hb => by
    rw [hl] at hb
    cases hb
    exact hp
  have hnew : Evolves R s (s.newListener (.trail config.keyPrefix) (some g)).2 := of_sessions_eq ha rfl
  have hat := hnew.trans ha (attach ha hfits id)
  rw [run_install, ← hl]
  simp only
  rcases hr : (Program.attach id l).run (s.newListener (.trail config.keyPrefix) (some g)).2
    with ⟨_ | _ | _, t⟩ <;> rw [hr] at hat
  · have hw := hat.trans ha (writeIdentity ha hp (some id))
    simp only
    rcases hr' : (Program.writeIdentity config.keyPrefix (some id)).run t with ⟨_ | e | _, u⟩ <;>
      rw [hr'] at hw
    · exact hw.trans ha (of_sessions_eq ha rfl)
    · exact hw.trans ha (rollBack ha (hw.fits ha h) id l e)
    · exact hw
  · exact hat
  · exact hat

/-- Whatever prefix the installer is configured with, it writes with that. -/
theorem ensureInstalled (h : s.Fits P) (g : InstallerId) (hP : ∀ i, s.installer? g = some i →
    P i.config.keyPrefix) (id : SessionId) : Evolves R s ((Program.ensureInstalled g id).run s).2 := by
  have hf : Evolves R s (Program.forgetGone g s).2 := of_sessions_eq ha (forgetGone_fields g s).1
  cases hi : s.installer? g with
  | none =>
    rw [run_ensureInstalled_of_none id hi]
    exact refl ha s
  | some i =>
    have hi' := installer?_forgetGone_self hi
    cases hst : (s.keepRows i).standings.get? id with
    | some st =>
      have hstand : (Program.forgetGone g s).2.standing? g id = some st := by
        simp only [standing?, hi', Option.bind_some, hst]
      rw [run_ensureInstalled_of_standing hstand]
      exact hf
    | none =>
      have hr : Evolves R s (setStanding g id (some .installing) (Program.forgetGone g s).2) :=
        hf.trans ha (of_sessions_eq ha rfl)
      rw [run_ensureInstalled_of_free hi' hst]
      exact (hr.trans ha (install ha (hr.fits ha h) (hP i hi) g id)).trans ha (of_sessions_eq ha rfl)

/-! ### Submissions -/

theorem fillAlong (id : SessionId) (plan : List (Place × Attribute)) (report : Report) (s : Program) :
    Evolves R s
      (Report.fillAlong (fun a => Program.onSession id (Session.read a)) plan report s).2.2 := by
  induction plan generalizing report s with
  | nil => exact refl ha s
  | cons step rest ih =>
    obtain ⟨place, a⟩ := step
    simp only [Report.fillAlong]
    split
    · exact ih report s
    · have h : Evolves R s ((Program.onSession id (Session.read a)).run s).2 :=
        onSession_of_keeps ha (Session.read_keeps_face a)
      rcases hr : (Program.onSession id (Session.read a)).run s with ⟨⟨_ | value⟩ | _ | _, t⟩ <;>
        rw [hr] at h
      · exact h.trans ha (ih report t)
      · exact h.trans ha (ih _ t)
      · exact h
      · exact h

theorem runProcessor (hint : Hint) (p : Processor) (report : Report) (s : Program) :
    Evolves R s (Program.runProcessor hint p report s).2 := by
  cases p with
  | enricher e =>
    simp only [Program.runProcessor, runEnricher]
    split
    · exact fillAlong ha e.session enrichmentPlan report s
    · exact refl ha s
  | rule r =>
    simp only [Program.runProcessor, runRule]
    split <;> exact of_sessions_eq ha rfl

theorem submit (report : Report) (hint : Hint) (s : Program) :
    Evolves R s (Program.submit report hint s).2 :=
  submit_preserves hint (fun p report t h => h.trans ha (runProcessor ha hint p report t))
    (fun _ _ h => h.trans ha (of_sessions_eq ha rfl)) report (refl ha s)

end

end Evolves

end Program

/-! ## Operations -/

namespace World

variable {w : World} {P : String → Prop} {R : Session → Session → Prop}

/-- What an operation makes of sessions that has nothing to do with installers and integrations, and that is
neither a write from outside nor a change of a backend. -/
theorem evolves_idle (ha : Session.Admits P R) {o : Operation} (ho : o.isIdle = true)
    (hwrite : ∀ id key value, o ≠ .write id key value) (hback : ∀ id b, o ≠ .setBackend id b)
    (hf : w.program.Fits P) (hl : ∀ l ∈ w.listeners, l.Fits P) :
    Evolves R w.program (o.next w).program := by
  have hthrough : ∀ {id : SessionId} {f : Program → Program}, Evolves R w.program (f w.program) →
      Evolves R w.program (w.through id f).program := fun h => through_preserves (.refl ha _) h
  cases o with
  | write id key value => exact absurd rfl (hwrite id key value)
  | setBackend id b => exact absurd rfl (hback id b)
  | start id settings backend detached => exact .start ha _ id settings backend _
  | stop id => exact hthrough (.stop ha hf id)
  | release id => exact .modifySession ha fun _ _ => ha.same rfl
  | read id a => exact hthrough (.onSession_of_keeps ha (Session.read_keeps_face a))
  | post id e => exact hthrough (.onSession_of_keeps ha (Session.post_keeps_face e))
  | turn id number =>
    simp only [Operation.next]
    split
    · rename_i v hv
      obtain ⟨x, hx, hm⟩ := Option.bind_eq_some_iff.mp hv
      exact .turn ha (hf id x hx v (List.mem_of_find?_eq_some hm))
    · exact .refl ha _
  | makeActive id => exact hthrough (.of_sessions_eq ha rfl)
  | clearActive id =>
    refine .of_sessions_eq ha ?_
    simp only [Operation.next, update, clearActive]
    split <;> rfl
  | attach id l =>
    simp only [Operation.next]
    split
    · rename_i hm
      exact hthrough (.attach ha (hl l hm) id)
    · exact .refl ha _
  | detach id l =>
    simp only [Operation.next]
    split
    · exact hthrough (.detach ha hf id l)
    · exact .refl ha _
  | submit report hint => exact .submit ha report hint _
  | tick | newListener | enable | disable | leave | clearCrumbs | register | unregister =>
    exact .of_sessions_eq ha rfl
  | newInstaller | ensureInstalled | forgetGone | newIntegration | setUp => cases ho

end World

end SessionTrail

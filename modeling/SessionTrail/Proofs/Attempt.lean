import SessionTrail.Proofs.Frame

/-!
# How an installation ends

An installation attaches its listener, writes the identity properties and registers an enricher. What
it leaves is told at the core of the program: its listener is not there, was there and is gone again, or
stays. Only a backend that crashes can make an installation crash.
-/
namespace SessionTrail

/-! ## Backends that do not crash -/

/-- A backend that serves or refuses every call, and never crashes. -/
def Backend.Calm (b : Backend) : Prop := ∀ history c, b.trouble history c ≠ some .crash

namespace Action

variable {σ ε δ α β : Type}

/-- From a state that is `ok` the action does not crash, and it leads to such a state. -/
def Serves (m : Action σ ε α) (ok : σ → Prop) : Prop :=
  ∀ s, ok s → (m.run s).1 ≠ .crashed ∧ ok (m.run s).2

variable {ok : σ → Prop}

theorem serves_pure (a : α) : (pure a : Action σ ε α).Serves ok := fun _ h => ⟨nofun, h⟩

theorem serves_fail (e : ε) : (fail e : Action σ ε α).Serves ok := fun _ h => ⟨nofun, h⟩

theorem serves_get : (get : Action σ ε σ).Serves ok := fun _ h => ⟨nofun, h⟩

theorem serves_modify {f : σ → σ} (hf : ∀ s, ok s → ok (f s)) :
    (modify f : Action σ ε Unit).Serves ok := fun s h => ⟨nofun, hf s h⟩

theorem Serves.bind {m : Action σ ε α} {next : α → Action σ ε β} (hm : m.Serves ok)
    (hnext : ∀ a, (next a).Serves ok) : (m >>= next).Serves ok := by
  intro s hs
  rw [run_bind]
  have h := hm s hs
  rcases hr : m.run s with ⟨_ | _ | _, t⟩ <;> rw [hr] at h
  · exact hnext _ t h.2
  · exact ⟨nofun, h.2⟩
  · exact absurd rfl h.1

end Action

namespace Session

theorem consult_serves (c : Call) : (consult c).Serves (·.backend.Calm) := by
  intro x hx
  change (consult c x).1 ≠ .crashed ∧ (consult c x).2.backend.Calm
  have hc := hx x.history c
  unfold consult
  split
  · exact ⟨nofun, hx⟩
  · exact ⟨nofun, hx⟩
  · rename_i h
    exact absurd h hc

theorem attempt_serves (c : Call) : (attempt c).Serves (·.backend.Calm) := by
  refine (consult_serves c).bind fun _ => Action.serves_get.bind fun x => ?_
  split
  · exact Action.serves_fail _
  · exact Action.serves_pure _

theorem readFact_serves (f : Fact) : (readFact f).Serves (·.backend.Calm) :=
  (attempt_serves _).bind fun _ => Action.serves_get.bind fun _ => Action.serves_pure _

theorem write_serves (key value : String) : (write key value).Serves (·.backend.Calm) :=
  (attempt_serves _).bind fun _ => Action.serves_modify fun _ h => h

theorem writeIdentity_serves (keyPrefix : String) :
    (writeIdentity keyPrefix).Serves (·.backend.Calm) :=
  (readFact_serves _).bind fun _ => (write_serves _ _).bind fun _ =>
    (readFact_serves _).bind fun _ => write_serves _ _

/-! ## Attaching and detaching -/

/-- The worker that a listener gets when it is attached. -/
def nextWorker (x : Session) (l : Listener) : Worker := ⟨x.added, l, ⟨x.bus.made⟩⟩

/-- A session to which a listener was attached and from which it was detached again. -/
def tryWorker (x : Session) (l : Listener) : Session := (x.addWorker l).endWorker (x.nextWorker l)

theorem addWorker_workers (x : Session) (l : Listener) :
    (x.addWorker l).workers = x.workers ++ [x.nextWorker l] := rfl

theorem addWorker_queue (x : Session) (l : Listener) :
    (x.addWorker l).bus.queue (x.nextWorker l).subscription = [] := by
  simp only [addWorker, Bus.subscribe, nextWorker, Bus.queue, Table.get?_set_self, Option.getD_some]

theorem workerOf?_addWorker {x : Session} {l : Listener}
    (h : ∀ w ∈ x.workers, w.listener.id ≠ l.id) :
    (x.addWorker l).workerOf? l.id = some (x.nextWorker l) := by
  simp only [workerOf?, addWorker_workers, List.find?_append, Option.or_eq_some_iff]
  right
  constructor
  · simpa using h
  · simp [nextWorker]

/-- The three ways in which an attachment ends. -/
theorem attach_cases (x : Session) (l : Listener) :
    (x.stopped = false ∧ x.backend.trouble x.history .attach = none ∧
      (attach l).run x = (.done (), (x.note .attach).addWorker l)) ∨
    (∃ e, (attach l).run x = (.failed e, x.note .attach)) ∨
    (x.backend.trouble x.history .attach = some .crash ∧
      (attach l).run x = (.crashed, x.note .attach)) := by
  have hr : (attach l).run x = attach l x := rfl
  rw [hr]
  simp only [attach, attempt, bind, Action.bind, consult, Action.get, Action.modify]
  rcases ht : x.backend.trouble x.history .attach with _ | (e | _)
  · cases hs : x.stopped with
    | true =>
      right
      left
      exact ⟨.stopped, by simp [note, hs, Action.fail]⟩
    | false =>
      left
      refine ⟨rfl, rfl, ?_⟩
      simp [note, hs, pure, Action.pure]
  · exact .inr (.inl ⟨e, rfl⟩)
  · exact .inr (.inr ⟨rfl, rfl⟩)

theorem endWorker_core (x : Session) (w : Worker) : (x.endWorker w).core = x.core.endWorker w := rfl

end Session

/-! ## The endings -/

namespace Program

/-- What an installation that has made its listener leaves, told against the program from then. -/
inductive Installs (id : SessionId) (l : Listener) (e : Enricher) (s : Program) :
    Outcome InstallFailure ProcessorId → Program → Prop where
  | refused (error : CallError) (t : Program) (core_eq : t.core = s.core) :
    Installs id l e s (.failed ⟨error, false⟩) t
  | takenBack (error : CallError) (t : Program) (x : Session) (here : s.session? id = some x)
      (running : x.stopped = false) (core_eq : t.core = (s.modifySession id (·.tryWorker l)).core) :
    Installs id l e s (.failed ⟨error, false⟩) t
  | stuck (error : CallError) (t : Program) (x : Session) (here : s.session? id = some x)
      (running : x.stopped = false) (core_eq : t.core = (s.modifySession id (·.addWorker l)).core) :
    Installs id l e s (.failed ⟨error, true⟩) t
  | lostAtFirst (t : Program) (x : Session) (here : s.session? id = some x)
      (crash : x.backend.trouble x.history .attach = some .crash) (core_eq : t.core = s.core) :
    Installs id l e s .crashed t
  | lostLater (t : Program) (x : Session) (here : s.session? id = some x)
      (running : x.stopped = false) (clean : x.backend.trouble x.history .attach = none)
      (crash : ¬ x.backend.Calm) (core_eq : t.core = (s.modifySession id (·.addWorker l)).core) :
    Installs id l e s .crashed t
  | completed (t : Program) (x : Session) (here : s.session? id = some x)
      (running : x.stopped = false)
      (core_eq : t.core = ((s.modifySession id (·.addWorker l)).register (.enricher e)).2.core) :
    Installs id l e s (.done ⟨s.reporter.registrations⟩) t

theorem set_session?_core {s : Program} {id : SessionId} {x y : Session} {f : Session → Session}
    (hx : s.session? id = some x) (hy : y.core = (f x).core) :
    { s with sessions := s.sessions.set id y }.core = (s.modifySession id f).core := by
  have hm : s.modifySession id f = { s with sessions := s.sessions.set id (f x) } := by
    simp only [session?] at hx
    simp only [modifySession, Table.modify, hx]
  rw [hm]
  simp only [core, Table.map_set, hy]

theorem modifySession_core_congr {s : Program} {id : SessionId} {x : Session}
    {f f' : Session → Session} (hx : s.session? id = some x) (h : (f x).core = (f' x).core) :
    (s.modifySession id f).core = (s.modifySession id f').core := by
  simp only [session?] at hx
  simp only [modifySession, Table.modify, hx, core, Table.map_set, h]

theorem session?_of_core_eq {s t : Program} {id : SessionId} {x : Session} {f : Session → Session}
    (h : t.core = (s.modifySession id f).core) (hx : s.session? id = some x) :
    ∃ y, t.session? id = some y ∧ y.core = (f x).core := by
  have hg := congrArg (fun u : Program => u.session? id) h
  simp only [session?_core] at hg
  have hm : (s.modifySession id f).session? id = some (f x) := by
    rw [session?_modifySession, if_pos rfl, hx, Option.map_some]
  rw [hm, Option.map_some, Option.map_eq_some_iff] at hg
  exact hg

theorem attach_ends (id : SessionId) (l : Listener) (s : Program) :
    (∃ x t, s.session? id = some x ∧ x.stopped = false ∧
      x.backend.trouble x.history .attach = none ∧ (attach id l).run s = (.done (), t) ∧
        t.core = (s.modifySession id (·.addWorker l)).core) ∨
    (∃ e t, (attach id l).run s = (.failed e, t) ∧ t.core = s.core) ∨
    (∃ x t, s.session? id = some x ∧ x.backend.trouble x.history .attach = some .crash ∧
      (attach id l).run s = (.crashed, t) ∧ t.core = s.core) := by
  unfold attach
  cases hx : s.session? id with
  | none =>
    right
    left
    exact ⟨.stopped, s, run_onSession_of_none hx, rfl⟩
  | some x =>
    rw [run_onSession hx]
    have hk : ∀ c, { s with sessions := s.sessions.set id (x.note c) }.core = s.core := fun c => by
      simp only [core]
      rw [Table.map_set_of_get? hx (show (x.note c).core = x.core from rfl)]
    obtain ⟨hs, hc, hr⟩ | ⟨e, hr⟩ | ⟨hc, hr⟩ := x.attach_cases l
    · left
      rw [hr]
      exact ⟨x, _, rfl, hs, hc, rfl, set_session?_core hx rfl⟩
    · right
      left
      rw [hr]
      exact ⟨e, _, rfl, hk _⟩
    · right
      right
      rw [hr]
      exact ⟨x, _, rfl, hc, rfl, hk _⟩

theorem run_detach (id : SessionId) (l : Listener) (s : Program) :
    (detach id l).run s = match (onSession id (Session.consult .detach)).run s with
      | (.done (), t) => (.done (endWorkerOf id l.id t).1, (endWorkerOf id l.id t).2)
      | (.failed e, t) => (.failed e, t)
      | (.crashed, t) => (.crashed, t) := by
  change detach id l s = match onSession id (Session.consult .detach) s with
    | (.done (), t) => (.done (endWorkerOf id l.id t).1, (endWorkerOf id l.id t).2)
    | (.failed e, t) => (.failed e, t)
    | (.crashed, t) => (.crashed, t)
  simp only [detach, bind, Action.bind]
  rcases onSession id (Session.consult .detach) s with ⟨_ | _ | _, t⟩ <;> rfl

theorem run_rollBack (id : SessionId) (l : Listener) (error : CallError) (s : Program) :
    (rollBack id l error).run s = match (detach id l).run s with
      | (.done _, t) => (.failed ⟨error, false⟩, t)
      | (.failed _, t) => (.failed ⟨error, true⟩, t)
      | (.crashed, t) => (.crashed, t) := rfl

theorem modifySession_modifySession (s : Program) (id : SessionId) (f f' : Session → Session) :
    (s.modifySession id f).modifySession id f' = s.modifySession id fun x => f' (f x) := by
  simp only [modifySession, Table.modify_modify]

/-- A listener that is new has only the worker that it has just been given, whose queue is empty. -/
theorem endWorkerOf_last {id : SessionId} {l : Listener} {s : Program} {x z : Session}
    (hz : s.session? id = some z) (hzc : z.core = (x.addWorker l).core)
    (hfresh : ∀ w ∈ x.workers, w.listener.id ≠ l.id) :
    endWorkerOf id l.id s = (true, s.modifySession id (·.endWorker (x.nextWorker l))) := by
  have hzw : z.workers = x.workers ++ [x.nextWorker l] :=
    (congrArg Session.workers hzc :)
  have hzb : z.bus = (x.addWorker l).bus := (congrArg Session.bus hzc :)
  have hw : z.workerOf? l.id = some (x.nextWorker l) := by
    rw [← Session.workerOf?_addWorker hfresh]
    simp only [Session.workerOf?, hzw, Session.addWorker_workers]
  have hq : z.bus.queue (x.nextWorker l).subscription = [] := by
    rw [hzb, Session.addWorker_queue]
  simp only [endWorkerOf, hz, Option.bind_some, hw, flush_of_empty hz hq]

/-- What taking a listener back leaves, from a program in which it is the last one of its session. -/
theorem rollBack_ends {id : SessionId} {l : Listener} {s t : Program} {x : Session}
    (error : CallError) (hx : s.session? id = some x)
    (hfresh : ∀ w ∈ x.workers, w.listener.id ≠ l.id)
    (ht : t.core = (s.modifySession id (·.addWorker l)).core) :
    (∃ u, (rollBack id l error).run t = (.failed ⟨error, false⟩, u) ∧
      u.core = (s.modifySession id (·.tryWorker l)).core) ∨
    (∃ u, (rollBack id l error).run t = (.failed ⟨error, true⟩, u) ∧ u.core = t.core) ∨
    (∃ u, (rollBack id l error).run t = (.crashed, u) ∧ u.core = t.core ∧ ¬ x.backend.Calm) := by
  obtain ⟨y, hy, hyc⟩ := session?_of_core_eq ht hx
  have hk := onSession_keeps_core id (Session.consult_keeps_core .detach) t
  rw [run_rollBack, run_detach]
  rcases hr : (onSession id (Session.consult .detach)).run t with ⟨_ | e | _, u⟩ <;> rw [hr] at hk
  · left
    have hu : u.core = (s.modifySession id (·.addWorker l)).core := hk.trans ht
    obtain ⟨z, hz, hzc⟩ := session?_of_core_eq hu hx
    have he := endWorkerOf_last hz hzc hfresh
    refine ⟨u.modifySession id (·.endWorker (x.nextWorker l)), ?_, ?_⟩
    · simp only [he]
    · rw [core_modifySession _ _ fun y => y.endWorker_core _, hu,
        ← core_modifySession _ _ fun y => y.endWorker_core _, modifySession_modifySession]
      exact modifySession_core_congr hx rfl
  · right
    left
    exact ⟨u, rfl, hk⟩
  · right
    right
    refine ⟨u, rfl, hk, fun calm => ?_⟩
    have hc : y.backend.Calm := by
      rw [show y.backend = x.backend from (congrArg Session.backend hyc :)]
      exact calm
    rw [run_onSession hy] at hr
    exact (Session.consult_serves .detach y hc).1 (congrArg Prod.fst hr)

theorem run_install (g : InstallerId) (config : Config) (id : SessionId) (s : Program) :
    (install g config id).run s =
      let l := (s.newListener (.trail config.keyPrefix) (some g)).1
      match (attach id l).run (s.newListener (.trail config.keyPrefix) (some g)).2 with
      | (.failed e, t) => (.failed ⟨e, false⟩, t)
      | (.crashed, t) => (.crashed, t)
      | (.done (), t) =>
        match (writeIdentity config.keyPrefix (some id)).run t with
        | (.failed e, u) => (rollBack id l e).run u
        | (.crashed, u) => (.crashed, u)
        | (.done (), u) =>
          (.done (u.register (.enricher ⟨id, config.integration, false⟩)).1,
            (u.register (.enricher ⟨id, config.integration, false⟩)).2) := rfl

theorem register_core (s : Program) (p : Processor) :
    (s.register p).2.core = (s.core.register p).2 := rfl

theorem installs_of_attached {id : SessionId} {l : Listener} {e : Enricher} {s t : Program}
    {x : Session} (keyPrefix : String) (hx : s.session? id = some x) (hs : x.stopped = false)
    (hc : x.backend.trouble x.history .attach = none)
    (hfresh : ∀ w ∈ x.workers, w.listener.id ≠ l.id)
    (ht : t.core = (s.modifySession id (·.addWorker l)).core) :
    let r : Outcome InstallFailure ProcessorId × Program :=
      match (writeIdentity keyPrefix (some id)).run t with
      | (.failed error, u) => (rollBack id l error).run u
      | (.crashed, u) => (.crashed, u)
      | (.done (), u) => (.done (u.register (.enricher e)).1, (u.register (.enricher e)).2)
    Installs id l e s r.1 r.2 := by
  intro r
  obtain ⟨y, hy, hyc⟩ := session?_of_core_eq ht hx
  have hk := writeIdentity_keeps_core keyPrefix (some id) t
  simp only [r]
  rcases hr : (writeIdentity keyPrefix (some id)).run t with ⟨_ | error | _, u⟩ <;> rw [hr] at hk
  · simp only
    have hu : u.core = (s.modifySession id (·.addWorker l)).core := hk.trans ht
    have hn : u.reporter.registrations = s.reporter.registrations :=
      (registrations_of_core_eq hu :)
    have hp : (u.register (.enricher e)).1 = ⟨s.reporter.registrations⟩ := by
      rw [← hn]
      rfl
    rw [hp]
    refine .completed _ x hx hs ?_
    rw [register_core, hu, register_core]
  · simp only
    have hu : u.core = (s.modifySession id (·.addWorker l)).core := hk.trans ht
    obtain ⟨v, hv, hvc⟩ | ⟨v, hv, hvc⟩ | ⟨v, hv, hvc, crash⟩ := rollBack_ends error hx hfresh hu
    · rw [hv]
      exact .takenBack error v x hx hs hvc
    · rw [hv]
      exact .stuck error v x hx hs (hvc.trans hu)
    · rw [hv]
      exact .lostLater v x hx hs hc crash (hvc.trans hu)
  · refine .lostLater u x hx hs hc (fun calm => ?_) (hk.trans ht)
    have hyb : y.backend.Calm := by
      rw [show y.backend = x.backend from (congrArg Session.backend hyc :)]
      exact calm
    have ho : (writeIdentity keyPrefix (some id)).run t =
        (onSession id (Session.writeIdentity keyPrefix)).run t := rfl
    rw [ho, run_onSession hy] at hr
    exact (Session.writeIdentity_serves keyPrefix y hyb).1 (congrArg Prod.fst hr)

/-- However an installation ends, it ends in one of the six ways. -/
theorem install_ends (g : InstallerId) (config : Config) (id : SessionId) (s : Program)
    (hfresh : ∀ x, s.session? id = some x → ∀ w ∈ x.workers, w.listener.id.val < s.listeners) :
    Installs id (s.newListener (.trail config.keyPrefix) (some g)).1 ⟨id, config.integration, false⟩
      (s.newListener (.trail config.keyPrefix) (some g)).2
      ((install g config id).run s).1 ((install g config id).run s).2 := by
  rw [run_install]
  obtain ⟨x, t, hx, hs, hc, hr, ht⟩ | ⟨e, t, hr, ht⟩ | ⟨x, t, hx, hc, hr, ht⟩ :=
    attach_ends id (s.newListener (.trail config.keyPrefix) (some g)).1
      (s.newListener (.trail config.keyPrefix) (some g)).2
  · simp only [hr]
    refine installs_of_attached config.keyPrefix hx hs hc (fun w hw he => ?_) ht
    have hlt := hfresh x hx w hw
    rw [he] at hlt
    exact Nat.lt_irrefl _ hlt
  · simp only [hr]
    exact .refused e t ht
  · simp only [hr]
    exact .lostAtFirst t x hx hc ht

/-- Whether the listener of an installation is at its session in the end. -/
def stays (x : Session) : Outcome InstallFailure ProcessorId → Bool
  | .done _ => true
  | .failed f => f.stranded
  | .crashed => (x.backend.trouble x.history .attach).isNone

theorem session?_of_modifySession_core_eq {s t : Program} {id : SessionId} {f : Session → Session}
    (h : t.sessions.map Session.core = (s.modifySession id f).sessions.map Session.core)
    {id' : SessionId} {y : Session} (hy : t.session? id' = some y) :
    ∃ x, s.session? id' = some x ∧ y.core = (if id' = id then f x else x).core := by
  obtain ⟨z, hz, hzy⟩ := session?_of_map_eq h hy
  rw [session?_modifySession] at hz
  split at hz
  · rename_i he
    obtain ⟨x, hx, rfl⟩ := Option.map_eq_some_iff.mp hz
    exact ⟨x, hx, by rw [if_pos he, hzy]⟩
  · rename_i he
    exact ⟨z, hz, by rw [if_neg he, hzy]⟩

theorem tryWorker_workers {x : Session} {l : Listener} (h : ∀ w ∈ x.workers, w.listener.id ≠ l.id) :
    (x.tryWorker l).workers = x.workers := by
  have hn : x.nextWorker l ∉ x.workers := fun hm => h _ hm rfl
  simp only [Session.tryWorker, Session.endWorker, Session.addWorker_workers]
  rw [List.erase_append_right _ hn, List.erase_cons_head, List.append_nil]

/-- What an installation makes of its session: all is as before but the workers, to which the one of
its listener may be added. -/
structure InstallEffect (l : Listener) (r : Outcome InstallFailure ProcessorId) (x y : Session) :
    Prop where
  stopped : y.stopped = x.stopped
  held : y.held = x.held
  home : y.home = x.home
  backend : y.backend = x.backend
  workers : y.workers = x.workers ++ if stays x r then [x.nextWorker l] else []
  running : stays x r = true → x.stopped = false

namespace InstallEffect

variable {l : Listener} {r : Outcome InstallFailure ProcessorId} {x y : Session}

theorem of_same (h : y.core = x.core) (hs : stays x r = false) : InstallEffect l r x y := by
  constructor
  · exact (congrArg Session.stopped h :)
  · exact (congrArg Session.held h :)
  · exact (congrArg Session.home h :)
  · exact (congrArg Session.backend h :)
  · rw [show y.workers = x.workers from (congrArg Session.workers h :), hs]
    simp
  · intro ht
    rw [hs] at ht
    cases ht

theorem of_tryWorker (h : y.core = (x.tryWorker l).core) (hs : stays x r = false)
    (hf : ∀ w ∈ x.workers, w.listener.id ≠ l.id) : InstallEffect l r x y := by
  constructor
  · exact (congrArg Session.stopped h :)
  · exact (congrArg Session.held h :)
  · exact (congrArg Session.home h :)
  · exact (congrArg Session.backend h :)
  · have hw : y.workers = (x.tryWorker l).workers := (congrArg Session.workers h :)
    rw [hw, tryWorker_workers hf, hs]
    simp
  · intro ht
    rw [hs] at ht
    cases ht

theorem of_addWorker (h : y.core = (x.addWorker l).core) (hs : stays x r = true)
    (hrun : x.stopped = false) : InstallEffect l r x y := by
  refine ⟨(congrArg Session.stopped h :), (congrArg Session.held h :), (congrArg Session.home h :),
    (congrArg Session.backend h :), ?_, fun _ => hrun⟩
  rw [show y.workers = (x.addWorker l).workers from (congrArg Session.workers h :), hs]
  rfl

end InstallEffect

/-- What an installation makes of any session, its `own` or another one: the only worker that is new
serves its listener. -/
structure InstallFrame (own : Prop) (l : Listener) (x y : Session) : Prop where
  stopped : y.stopped = x.stopped
  held : y.held = x.held
  home : y.home = x.home
  backend : y.backend = x.backend
  worker : ∀ w ∈ y.workers, w ∈ x.workers ∨ own ∧ w = x.nextWorker l ∧ x.stopped = false

theorem InstallFrame.of_effect {own : Prop} {l : Listener} {r : Outcome InstallFailure ProcessorId}
    {x y : Session} (other : ¬ own → y.core = x.core) (effect : own → InstallEffect l r x y) :
    InstallFrame own l x y := by
  by_cases ho : own
  · have he := effect ho
    refine ⟨he.stopped, he.held, he.home, he.backend, fun w hw => ?_⟩
    rw [he.workers, List.mem_append] at hw
    rcases hw with hw | hw
    · exact .inl hw
    · split at hw
      · rename_i hs
        exact .inr ⟨ho, List.mem_singleton.mp hw, he.running hs⟩
      · cases hw
  · have he := other ho
    refine ⟨(congrArg Session.stopped he :), (congrArg Session.held he :), (congrArg Session.home he :),
      (congrArg Session.backend he :), fun w hw => .inl ?_⟩
    rw [← show y.workers = x.workers from (congrArg Session.workers he :)]
    exact hw

/-- An installation leaves every other session at its core, and makes of its own what `InstallEffect`
tells. -/
theorem Installs.effect {id : SessionId} {l : Listener} {e : Enricher} {s u : Program}
    {r : Outcome InstallFailure ProcessorId} (h : Installs id l e s r u)
    (hfresh : ∀ x, s.session? id = some x → ∀ w ∈ x.workers, w.listener.id ≠ l.id)
    {id' : SessionId} {y : Session} (hy : u.session? id' = some y) :
    ∃ x, s.session? id' = some x ∧ (id' ≠ id → y.core = x.core) ∧
      (id' = id → InstallEffect l r x y) := by
  have same : u.core = s.core → ∃ x, s.session? id' = some x ∧ y.core = x.core := fun hc => by
    obtain ⟨x, hx, hxy⟩ := session?_of_map_eq (congrArg Program.sessions hc :) hy
    exact ⟨x, hx, hxy.symm⟩
  have changed : ∀ f : Session → Session,
      u.sessions.map Session.core = (s.modifySession id f).sessions.map Session.core →
        ∃ x, s.session? id' = some x ∧ (id' ≠ id → y.core = x.core) ∧
          (id' = id → y.core = (f x).core) := fun f hc => by
    obtain ⟨x, hx, hxy⟩ := session?_of_modifySession_core_eq hc hy
    refine ⟨x, hx, fun hne => ?_, fun he => ?_⟩
    · rw [if_neg hne] at hxy
      exact hxy
    · rw [if_pos he] at hxy
      exact hxy
  cases h with
  | refused error _ hc =>
    obtain ⟨x, hx, hxy⟩ := same hc
    exact ⟨x, hx, fun _ => hxy, fun _ => .of_same hxy rfl⟩
  | takenBack error _ x₀ here running hc =>
    obtain ⟨x, hx, hne, heq⟩ := changed _ (congrArg Program.sessions hc :)
    exact ⟨x, hx, hne, fun he => .of_tryWorker (heq he) rfl (hfresh x (he ▸ hx))⟩
  | stuck error _ x₀ here running hc =>
    obtain ⟨x, hx, hne, heq⟩ := changed _ (congrArg Program.sessions hc :)
    refine ⟨x, hx, hne, fun he => .of_addWorker (heq he) rfl ?_⟩
    rw [he, here] at hx
    cases hx
    exact running
  | lostAtFirst _ x₀ here crash hc =>
    obtain ⟨x, hx, hxy⟩ := same hc
    refine ⟨x, hx, fun _ => hxy, fun he => .of_same hxy ?_⟩
    rw [he, here] at hx
    cases hx
    simp only [stays, crash, Option.isNone_some]
  | lostLater _ x₀ here running clean crash hc =>
    obtain ⟨x, hx, hne, heq⟩ := changed _ (congrArg Program.sessions hc :)
    refine ⟨x, hx, hne, fun he => ?_⟩
    rw [he, here] at hx
    cases hx
    exact .of_addWorker (heq he) (by simp only [stays, clean, Option.isNone_none]) running
  | completed _ x₀ here running hc =>
    obtain ⟨x, hx, hne, heq⟩ := changed _ (congrArg Program.sessions hc :)
    refine ⟨x, hx, hne, fun he => .of_addWorker (heq he) rfl ?_⟩
    rw [he, here] at hx
    cases hx
    exact running

theorem Installs.fields {id : SessionId} {l : Listener} {e : Enricher} {s u : Program}
    {r : Outcome InstallFailure ProcessorId} (h : Installs id l e s r u) :
    u.installers = s.installers ∧ u.active = s.active ∧ u.listeners = s.listeners ∧
      u.integrations = s.integrations := by
  cases h <;> rename_i hc <;>
    exact ⟨(congrArg Program.installers hc :), (congrArg Program.active hc :),
      (congrArg Program.listeners hc :), (congrArg Program.integrations hc :)⟩

theorem isSome_session?_modifySession (s : Program) (id id' : SessionId) (f : Session → Session) :
    ((s.modifySession id f).session? id').isSome = (s.session? id').isSome := by
  rw [session?_modifySession]
  split <;> simp only [Option.isSome_map]

theorem Installs.known {id : SessionId} {l : Listener} {e : Enricher} {s u : Program}
    {r : Outcome InstallFailure ProcessorId} (h : Installs id l e s r u) (id' : SessionId) :
    (u.session? id').isSome = (s.session? id').isSome := by
  cases h <;> rename_i hc <;> rw [isSome_session?_of_map_eq (congrArg Program.sessions hc :)]
  all_goals exact isSome_session?_modifySession s id id' _

theorem Installs.of_none {id : SessionId} {l : Listener} {e : Enricher} {s u : Program}
    {r : Outcome InstallFailure ProcessorId} (h : Installs id l e s r u) (hn : s.session? id = none) :
    ∃ error, r = .failed ⟨error, false⟩ := by
  cases h with
  | refused error => exact ⟨error, rfl⟩
  | takenBack error => exact ⟨error, rfl⟩
  | stuck _ _ _ here | lostAtFirst _ _ here | lostLater _ _ here | completed _ _ here =>
    rw [hn] at here
    cases here

end Program

end SessionTrail

import SessionTrail.Proofs.Standing

/-!
# The first call that is not served

An installation makes its calls one after another: it attaches its listener, then reads and writes what
identifies the application. The first call that is not served decides how it ends. Unless that is the
attachment, one more call is made to take the listener back, and what becomes of that one tells whether
the session is stranded.
-/
namespace SessionTrail

/-- How an action ends in which there is trouble with a call. -/
def Trouble.outcome {α : Type} : Trouble → Outcome CallError α
  | .refusal e => .failed e
  | .crash => .crashed

namespace Backend

/-- The trouble with a call of a session that may have stopped. -/
def troubleWith (b : Backend) (stopped : Bool) (history : List Call) (c : Call) : Option Trouble :=
  (b.trouble history c).or (if stopped then some (.refusal .stopped) else none)

/-- The first trouble with calls that are made one after another. -/
def firstTrouble (b : Backend) (stopped : Bool) (history : List Call) : List Call → Option Trouble
  | [] => none
  | c :: rest => (b.troubleWith stopped history c).or (b.firstTrouble stopped (history ++ [c]) rest)

/-- Those of some calls that are made: all up to the first with which there is trouble. -/
def made (b : Backend) (stopped : Bool) (history : List Call) : List Call → List Call
  | [] => []
  | c :: rest =>
    c :: if (b.troubleWith stopped history c).isSome then []
      else b.made stopped (history ++ [c]) rest

end Backend

namespace Session

def troubleWith (x : Session) (c : Call) : Option Trouble :=
  x.backend.troubleWith x.stopped x.history c

def firstTrouble (x : Session) (cs : List Call) : Option Trouble :=
  x.backend.firstTrouble x.stopped x.history cs

def made (x : Session) (cs : List Call) : List Call := x.backend.made x.stopped x.history cs

/-- The calls that write the identity properties. -/
def identityCalls (x : Session) (keyPrefix : String) : List Call :=
  [.read (.fact .appName), .write (propertyKey keyPrefix appNameProperty) (x.fact .appName),
    .read (.fact .applicationId),
    .write (propertyKey keyPrefix applicationIdProperty) (x.fact .applicationId)]

/-- The calls of an installation. -/
def installCalls (x : Session) (keyPrefix : String) : List Call := .attach :: x.identityCalls keyPrefix

/-- Whether an installation that has attached its listener cannot take it back, because that call is
refused too. -/
def RefusesToDetach (x : Session) (keyPrefix : String) : Prop :=
  x.troubleWith .attach = none ∧
    ∃ e, x.backend.trouble (x.history ++ x.made (x.installCalls keyPrefix)) .detach =
      some (.refusal e)

/-! ## Making calls -/

/-- A session that has served a call. -/
def served (x : Session) : Call → Session
  | .write key value =>
    { x.note (.write key value) with
      properties := x.properties.insert key value
      writes := x.writes + 1 }
  | c => x.note c

/-- Make calls one after another, up to the first that is not served. -/
def makeCalls : List Call → Session → Outcome CallError Unit × Session
  | [], x => (.done (), x)
  | c :: rest, x =>
    match x.troubleWith c with
    | none => makeCalls rest (x.served c)
    | some t => (t.outcome, x.note c)

theorem served_backend (x : Session) (c : Call) : (x.served c).backend = x.backend := by
  cases c <;> rfl

theorem served_stopped (x : Session) (c : Call) : (x.served c).stopped = x.stopped := by
  cases c <;> rfl

theorem served_history (x : Session) (c : Call) : (x.served c).history = x.history ++ [c] := by
  cases c <;> rfl

theorem served_core (x : Session) (c : Call) : (x.served c).core = x.core := by cases c <;> rfl

theorem foldl_served_core (cs : List Call) (x : Session) : (cs.foldl served x).core = x.core := by
  induction cs generalizing x with
  | nil => rfl
  | cons c rest ih => exact (ih _).trans (served_core x c)

theorem foldl_served_history (cs : List Call) (x : Session) :
    (cs.foldl served x).history = x.history ++ cs := by
  induction cs generalizing x with
  | nil => exact (List.append_nil _).symm
  | cons c rest ih =>
    rw [List.foldl_cons, ih, served_history, List.append_assoc]
    rfl

theorem firstTrouble_cons (x : Session) (c : Call) (rest : List Call) :
    x.firstTrouble (c :: rest) = (x.troubleWith c).or ((x.served c).firstTrouble rest) := by
  simp only [firstTrouble, Backend.firstTrouble, troubleWith, served_backend, served_stopped,
    served_history]

theorem made_cons (x : Session) (c : Call) (rest : List Call) :
    x.made (c :: rest) = c :: if (x.troubleWith c).isSome then [] else (x.served c).made rest := by
  simp only [made, Backend.made, troubleWith, served_backend, served_stopped, served_history]

/-- Calls are all served, or there is one with which there is trouble behind others that are served. -/
theorem makeCalls_cases (cs : List Call) (x : Session) :
    (x.firstTrouble cs = none ∧ makeCalls cs x = (.done (), cs.foldl served x)) ∨
    ∃ first c rest t, cs = first ++ c :: rest ∧ x.firstTrouble cs = some t ∧
      x.made cs = first ++ [c] ∧ makeCalls cs x = (t.outcome, (first.foldl served x).note c) := by
  induction cs generalizing x with
  | nil => exact .inl ⟨rfl, rfl⟩
  | cons c rest ih =>
    rw [firstTrouble_cons, made_cons, makeCalls]
    cases ht : x.troubleWith c with
    | some t => exact .inr ⟨[], c, rest, t, rfl, rfl, rfl, rfl⟩
    | none =>
      simp only [Option.none_or, Option.isSome_none, Bool.false_eq_true, if_false, List.foldl_cons]
      obtain ⟨hn, hm⟩ | ⟨first, d, others, t, rfl, hf, hm, hr⟩ := ih (x.served c)
      · exact .inl ⟨hn, hm⟩
      · exact .inr ⟨c :: first, d, others, t, rfl, hf, by rw [hm]; rfl, hr⟩

/-- From `x` the action comes down to some calls, and has the value `v` when they are all served. -/
def Makes {α : Type} (m : Action Session CallError α) (cs : List Call) (x : Session) (v : α) : Prop :=
  m.run x = ((makeCalls cs x).1.map fun _ => v, (makeCalls cs x).2)

theorem run_consult (x : Session) (c : Call) : (consult c).run x =
    ((x.backend.trouble x.history c).elim (.done ()) Trouble.outcome, x.note c) := by
  change consult c x = _
  unfold consult
  rcases x.backend.trouble x.history c with _ | (e | _) <;> rfl

theorem run_attempt (x : Session) (c : Call) :
    (attempt c).run x = ((x.troubleWith c).elim (.done ()) Trouble.outcome, x.note c) := by
  rw [attempt, Action.run_bind, run_consult, troubleWith, Backend.troubleWith]
  rcases x.backend.trouble x.history c with _ | (e | _)
  · simp only [Option.elim_none, Option.none_or, Action.run_bind, Action.run_get]
    have hs : (x.note c).stopped = x.stopped := rfl
    rw [hs]
    cases x.stopped <;> rfl
  · rfl
  · rfl

theorem makeCalls_append (cs cs' : List Call) (x : Session) :
    makeCalls (cs ++ cs') x = match makeCalls cs x with
      | (.done (), y) => makeCalls cs' y
      | (.failed e, y) => (.failed e, y)
      | (.crashed, y) => (.crashed, y) := by
  induction cs generalizing x with
  | nil => rfl
  | cons c rest ih =>
    rw [List.cons_append, makeCalls, makeCalls]
    cases x.troubleWith c with
    | none => exact ih _
    | some t => cases t <;> rfl

theorem Makes.bind {α β : Type} {m : Action Session CallError α}
    {next : α → Action Session CallError β} {cs cs' : List Call} {x : Session} {v : α} {u : β}
    (hm : Makes m cs x v) (hnext : Makes (next v) cs' (cs.foldl served x) u) :
    Makes (m >>= next) (cs ++ cs') x u := by
  rw [Makes, Action.run_bind, hm, makeCalls_append]
  obtain ⟨_, hr⟩ | ⟨first, c, rest, t, _, _, _, hr⟩ := makeCalls_cases cs x <;> rw [hr]
  · exact hnext
  · cases t <;> rfl

theorem makes_attempt {α : Type} (x : Session) (c : Call) {next : Action Session CallError α} {v : α}
    (hnext : next.run (x.note c) = (.done v, x.served c)) : Makes (attempt c >>= fun _ => next) [c] x v := by
  rw [Makes, Action.run_bind, run_attempt, makeCalls]
  cases x.troubleWith c with
  | none => exact hnext
  | some t => cases t <;> rfl

theorem makes_readFact (x : Session) (f : Fact) : Makes (readFact f) [.read (.fact f)] x (x.fact f) :=
  makes_attempt x _ (by cases f <;> rfl)

theorem makes_write (x : Session) (key value : String) :
    Makes (write key value) [.write key value] x () := makes_attempt x _ rfl

theorem makes_writeIdentity (x : Session) (keyPrefix : String) :
    Makes (writeIdentity keyPrefix) (x.identityCalls keyPrefix) x () :=
  (makes_readFact x .appName).bind
    ((makes_write _ (propertyKey keyPrefix appNameProperty) (x.fact .appName)).bind
      ((makes_readFact _ .applicationId).bind
        (makes_write _ (propertyKey keyPrefix applicationIdProperty) (x.fact .applicationId))))

theorem run_attach (x : Session) (l : Listener) : (attach l).run x =
    match x.troubleWith .attach with
      | none => (.done (), (x.note .attach).addWorker l)
      | some t => (t.outcome, x.note .attach) := by
  rw [attach, Action.run_bind, run_attempt]
  cases x.troubleWith .attach with
  | none => rfl
  | some t => cases t <;> rfl

/-- What an installation that fails makes of its session: of its writes, only the first may be there,
and of its listener nothing, unless the session is stranded. -/
structure Undone (x : Session) (keyPrefix : String) (l : Listener) (stranded : Bool) (y : Session) :
    Prop where
  workers : y.workers = x.workers ++ if stranded then [x.nextWorker l] else []
  properties : y.properties = x.properties ∨
    y.properties = x.properties.insert (propertyKey keyPrefix appNameProperty) (x.fact .appName)

/-- Before the last of the calls at most one property has been written. -/
theorem properties_foldl_served {x : Session} {keyPrefix : String} {first rest : List Call} {c : Call}
    (h : x.identityCalls keyPrefix = first ++ c :: rest) (z : Session) :
    (first.foldl served z).properties = z.properties ∨ (first.foldl served z).properties =
      z.properties.insert (propertyKey keyPrefix appNameProperty) (x.fact .appName) := by
  rcases first with _ | ⟨c₁, _ | ⟨c₂, _ | ⟨c₃, _ | ⟨c₄, others⟩⟩⟩⟩
  · exact .inl rfl
  · cases h
    exact .inl rfl
  · cases h
    exact .inr rfl
  · cases h
    exact .inr rfl
  · cases others <;> cases h

theorem firstTrouble_installCalls {x : Session} (keyPrefix : String) (l : Listener)
    (ht : x.troubleWith .attach = none) : x.firstTrouble (x.installCalls keyPrefix) =
      ((x.note .attach).addWorker l).firstTrouble (x.identityCalls keyPrefix) := by
  rw [installCalls, firstTrouble_cons, ht]
  rfl

theorem made_installCalls {x : Session} (keyPrefix : String) (l : Listener) (ht : x.troubleWith .attach = none) :
    x.made (x.installCalls keyPrefix) =
      .attach :: ((x.note .attach).addWorker l).made (x.identityCalls keyPrefix) := by
  rw [installCalls, made_cons, ht]
  rfl

/-- What becomes of the calls behind the attachment: they are all served, or there is trouble with one of
them, in a session that has the listener and has seen the calls so far. -/
theorem makeCalls_identityCalls {x : Session} (keyPrefix : String) (l : Listener)
    (ht : x.troubleWith .attach = none) :
    (x.firstTrouble (x.installCalls keyPrefix) = none ∧
      (makeCalls (x.identityCalls keyPrefix) ((x.note .attach).addWorker l)).1 = .done ()) ∨
    ∃ t z, x.firstTrouble (x.installCalls keyPrefix) = some t ∧
      makeCalls (x.identityCalls keyPrefix) ((x.note .attach).addWorker l) = (t.outcome, z) ∧
      z.core = (x.addWorker l).core ∧
      z.history = x.history ++ x.made (x.installCalls keyPrefix) ∧
      (z.properties = x.properties ∨
        z.properties = x.properties.insert (propertyKey keyPrefix appNameProperty) (x.fact .appName)) := by
  rw [firstTrouble_installCalls keyPrefix l ht, made_installCalls keyPrefix l ht]
  obtain ⟨hn, hm⟩ | ⟨first, c, rest, t, hcs, hf, hmade, hm⟩ :=
    makeCalls_cases (x.identityCalls keyPrefix) ((x.note .attach).addWorker l) <;> rw [hm]
  · exact .inl ⟨hn, rfl⟩
  · refine .inr ⟨t, _, hf, rfl, foldl_served_core first _, ?_,
      properties_foldl_served hcs ((x.note .attach).addWorker l)⟩
    have hh : ((first.foldl served ((x.note .attach).addWorker l)).note c).history =
        (first.foldl served ((x.note .attach).addWorker l)).history ++ [c] := rfl
    have ha : ((x.note .attach).addWorker l).history = x.history ++ [.attach] := rfl
    rw [hmade, hh, foldl_served_history, ha]
    simp only [List.append_assoc, List.cons_append, List.nil_append]

end Session

namespace Program

open Session

variable {g : InstallerId} {config : Config} {id : SessionId} {s u : Program} {x : Session}

/-- How a listener is taken back, told at the session. -/
theorem run_rollBack_of_attached {l : Listener} {z : Session} (error : CallError)
    (hz : s.session? id = some z) (hzc : z.core = (x.addWorker l).core)
    (hfresh : ∀ w ∈ x.workers, w.listener.id ≠ l.id) :
    (rollBack id l error).run s = match z.backend.trouble z.history .detach with
      | none => (.failed ⟨error, false⟩,
        { s with sessions := s.sessions.set id ((z.note .detach).endWorker (x.nextWorker l)) })
      | some (.refusal _) =>
        (.failed ⟨error, true⟩, { s with sessions := s.sessions.set id (z.note .detach) })
      | some .crash => (.crashed, { s with sessions := s.sessions.set id (z.note .detach) }) := by
  rw [run_rollBack, run_detach, run_onSession hz, run_consult]
  rcases z.backend.trouble z.history .detach with _ | (e | _)
  · have hv : ({ s with sessions := s.sessions.set id (z.note .detach) } : Program).session? id =
        some (z.note .detach) := Table.get?_set_self _ _ _
    simp only [Option.elim_none, endWorkerOf_last hv hzc hfresh]
    simp only [modifySession, Table.modify, Table.get?_set_self, Table.set_set]
  · rfl
  · rfl

theorem run_install_of_attached (hx : s.session? id = some x) (ht : x.troubleWith .attach = none) :
    let l := (s.newListener (.trail config.keyPrefix) (some g)).1
    let r := makeCalls (x.identityCalls config.keyPrefix) ((x.note .attach).addWorker l)
    let t : Program := { s with sessions := s.sessions.set id r.2, listeners := s.listeners + 1 }
    (install g config id).run s = match r.1 with
      | .failed e => (rollBack id l e).run t
      | .crashed => (.crashed, t)
      | .done () => (.done (t.register (.enricher ⟨id, config.integration, false⟩)).1,
          (t.register (.enricher ⟨id, config.integration, false⟩)).2) := by
  intro l r t
  have hx' : (s.newListener (.trail config.keyPrefix) (some g)).2.session? id = some x := hx
  have ha : (attach id l).run (s.newListener (.trail config.keyPrefix) (some g)).2 =
      (.done (), { s with
        sessions := s.sessions.set id ((x.note .attach).addWorker l)
        listeners := s.listeners + 1 }) := by
    rw [attach, run_onSession hx', run_attach, ht]
    rfl
  have hw : (writeIdentity config.keyPrefix (some id)).run { s with
      sessions := s.sessions.set id ((x.note .attach).addWorker l)
      listeners := s.listeners + 1 } = (r.1, t) := by
    have hz : ({ s with
        sessions := s.sessions.set id ((x.note .attach).addWorker l)
        listeners := s.listeners + 1 } : Program).session? id =
          some ((x.note .attach).addWorker l) := Table.get?_set_self _ _ _
    have hm : (Session.writeIdentity config.keyPrefix).run ((x.note .attach).addWorker l) =
        (r.1.map fun _ => (), r.2) := makes_writeIdentity _ config.keyPrefix
    have hr : r.1.map (fun _ => ()) = r.1 := by rcases r.1 with _ | _ | _ <;> rfl
    rw [writeIdentity, run_onSession hz, hm, hr]
    simp only [Table.set_set, t]
  rw [run_install]
  simp only [show (s.newListener (.trail config.keyPrefix) (some g)).1 = l from rfl, ha, hw]
  rcases r with ⟨_ | _ | _, y⟩ <;> rfl

theorem install_of_refused (hx : s.session? id = some x) {t : Trouble}
    (ht : x.troubleWith .attach = some t) :
    (install g config id).run s = (t.outcome.mapError (⟨·, false⟩), { s with
      sessions := s.sessions.set id (x.note .attach)
      listeners := s.listeners + 1 }) := by
  have hx' : (s.newListener (.trail config.keyPrefix) (some g)).2.session? id = some x := hx
  rw [run_install]
  simp only [attach]
  rw [run_onSession hx', run_attach, ht]
  cases t <;> rfl

/-- A rollback that does not crash tells the error that it was given. It leaves the listener if the
session refuses to detach it. -/
theorem rollBack_failed {l : Listener} {z : Session} {error : CallError} {f : InstallFailure}
    (hz : s.session? id = some z) (hzc : z.core = (x.addWorker l).core)
    (hfresh : ∀ w ∈ x.workers, w.listener.id ≠ l.id)
    (hr : (rollBack id l error).run s = (.failed f, u)) :
    f.error = error ∧
      (f.stranded = true ↔ ∃ e, z.backend.trouble z.history .detach = some (.refusal e)) ∧
      ∃ y, y.workers = x.workers ++ (if f.stranded then [x.nextWorker l] else []) ∧
        y.properties = z.properties ∧ u = { s with sessions := s.sessions.set id y } := by
  have hw : z.workers = x.workers ++ [x.nextWorker l] := (congrArg Session.workers hzc :)
  rw [run_rollBack_of_attached error hz hzc hfresh] at hr
  rcases ht : z.backend.trouble z.history .detach with _ | (e | _) <;> rw [ht] at hr
  · have hn : x.nextWorker l ∉ x.workers := fun hm => hfresh _ hm rfl
    cases hr
    refine ⟨rfl, ⟨nofun, nofun⟩, (z.note .detach).endWorker (x.nextWorker l), ?_, rfl, rfl⟩
    change z.workers.erase (x.nextWorker l) = _
    rw [hw, List.erase_append_right _ hn, List.erase_cons_head]
    rfl
  · cases hr
    exact ⟨rfl, ⟨fun _ => ⟨e, rfl⟩, fun _ => rfl⟩, z.note .detach, hw, rfl, rfl⟩
  · cases hr

/-- An installation that fails tells of the first call that was not served, and takes its listener back
unless that is refused. -/
theorem install_failed {f : InstallFailure} (hx : s.session? id = some x)
    (hfresh : ∀ w ∈ x.workers, w.listener.id.val < s.listeners)
    (hr : (install g config id).run s = (.failed f, u)) :
    x.firstTrouble (x.installCalls config.keyPrefix) = some (.refusal f.error) ∧
      (f.stranded = true ↔ x.RefusesToDetach config.keyPrefix) ∧
      ∃ y, x.Undone config.keyPrefix (s.newListener (.trail config.keyPrefix) (some g)).1 f.stranded y ∧
        u = { s with sessions := s.sessions.set id y, listeners := s.listeners + 1 } := by
  cases ht : x.troubleWith .attach with
  | some t =>
    rw [install_of_refused hx ht] at hr
    cases t with
    | crash => cases hr
    | refusal e =>
      cases hr
      refine ⟨?_, ⟨nofun, fun h => ?_⟩, x.note .attach, ⟨(List.append_nil _).symm, .inl rfl⟩, rfl⟩
      · rw [installCalls, firstTrouble_cons, ht]
        rfl
      · rw [h.1] at ht
        cases ht
  | none =>
    have hnew : ∀ w ∈ x.workers,
        w.listener.id ≠ (s.newListener (.trail config.keyPrefix) (some g)).1.id := fun w hw he => by
      have hlt := hfresh w hw
      rw [he] at hlt
      exact Nat.lt_irrefl _ hlt
    rw [run_install_of_attached hx ht] at hr
    obtain ⟨l, hl⟩ : ∃ l, l = (s.newListener (.trail config.keyPrefix) (some g)).1 := ⟨_, rfl⟩
    rw [← hl] at hr hnew ⊢
    obtain ⟨_, hd⟩ | ⟨t, z, hf, hm, hcore, hhist, hprop⟩ :=
      makeCalls_identityCalls config.keyPrefix l ht
    · rw [hd] at hr
      cases hr
    · rw [hm] at hr
      cases t with
      | crash => cases hr
      | refusal e =>
        have hz : ({ s with sessions := s.sessions.set id z, listeners := s.listeners + 1 } :
            Program).session? id = some z := Table.get?_set_self _ _ _
        have hb : z.backend = x.backend := (congrArg Session.backend hcore :)
        obtain ⟨he, hstr, y, hw, hp, hu⟩ := rollBack_failed hz hcore hnew hr
        rw [hb, hhist] at hstr
        refine ⟨he ▸ hf, hstr.trans ⟨fun h => ⟨ht, h⟩, And.right⟩, y, ⟨hw, hp ▸ hprop⟩, ?_⟩
        rw [hu]
        simp only [Table.set_set]

/-- An installation whose calls are all served is completed. -/
theorem install_done (hx : s.session? id = some x)
    (hn : x.firstTrouble (x.installCalls config.keyPrefix) = none) :
    ∃ p, ((install g config id).run s).1 = .done p := by
  have ht : x.troubleWith .attach = none := by
    rw [installCalls, firstTrouble_cons, Option.or_eq_none_iff] at hn
    exact hn.1
  rw [run_install_of_attached hx ht]
  obtain ⟨_, hd⟩ | ⟨t, _, hf, _⟩ := makeCalls_identityCalls config.keyPrefix
    (s.newListener (.trail config.keyPrefix) (some g)).1 ht
  · rw [hd]
    exact ⟨_, rfl⟩
  · rw [hf] at hn
    cases hn

end Program
end SessionTrail

import SessionTrail.Proofs.Refreshes

/-!
# What a trail does with each event

A listener that leaves a trail is handed events one after another, while anything else may happen to the
program in between. When a job starts or an attempt is submitted, it leaves its breadcrumb first. Then it
calls the session that is active at that moment, up to the first call that is not served, and no other one.
That the session has stopped is no error; that it is not available is one. At all other events no session
is called.
-/
namespace SessionTrail

open Program

/-- An event that a listener is handed: the program that it finds then, and how it ends with the event. -/
structure Callback where
  before : Program
  event : Event
  outcome : Outcome HandlingError Unit
  after : Program

/-- Hand an event to a listener. -/
def callback (l : Listener) (e : Event) (s : Program) : Callback :=
  ⟨s, e, ((notify l e).run s).1, ((notify l e).run s).2⟩

/-- Hand events to a listener one after another. Before each of them, something else may happen to the
program. -/
def callbacks (l : Listener) : List ((Program → Program) × Event) → Program → List Callback
  | [], _ => []
  | (meanwhile, e) :: rest, s =>
    callback l e (meanwhile s) :: callbacks l rest (callback l e (meanwhile s)).after

/-- How a refresh ends whose first trouble, if it meets any, is this one. -/
def refreshEnd : Option Trouble → Outcome HandlingError Unit
  | none | some (.refusal .stopped) => .done ()
  | some (.refusal (.unavailable why)) => .failed (.other (.unavailable why))
  | some .crash => .crashed

/-! ## Calls of a session -/

/-- From `x` to `y` a session has seen some calls, and nothing but what they do has become of it. -/
structure Session.Called (x : Session) (cs : List Call) (y : Session) : Prop where
  history : y.history = x.history ++ cs
  log : y.log = x.log ++ cs
  core : y.core = x.core

namespace Session

theorem served_log (x : Session) (c : Call) : (x.served c).log = x.log ++ [c] := by cases c <;> rfl

theorem called_note (x : Session) (c : Call) : x.Called [c] (x.note c) := ⟨rfl, rfl, rfl⟩

theorem Called.cons {x y : Session} {c : Call} {cs : List Call} (h : (x.served c).Called cs y) :
    x.Called (c :: cs) y := by
  refine ⟨?_, ?_, h.core.trans (served_core x c)⟩
  · rw [h.history, served_history, List.append_assoc]
    rfl
  · rw [h.log, served_log, List.append_assoc]
    rfl

/-- Of calls that are to be made, a session sees those up to the first with which there is trouble. -/
theorem called_makeCalls (cs : List Call) (x : Session) : x.Called (x.made cs) (makeCalls cs x).2 := by
  induction cs generalizing x with
  | nil => exact ⟨(List.append_nil _).symm, (List.append_nil _).symm, rfl⟩
  | cons c rest ih =>
    rw [made_cons, makeCalls]
    cases x.troubleWith c with
    | none => exact (ih (x.served c)).cons
    | some t => exact called_note x c

theorem makeCalls_fst (cs : List Call) (x : Session) :
    (makeCalls cs x).1 = (x.firstTrouble cs).elim (.done ()) Trouble.outcome := by
  obtain ⟨hn, hm⟩ | ⟨_, _, _, t, _, ht, _, hm⟩ := makeCalls_cases cs x
  · rw [hn, hm]
    rfl
  · rw [ht, hm]
    rfl

end Session

theorem ofRefresh_outcome (trouble? : Option Trouble) :
    Outcome.ofRefresh (trouble?.elim (.done ()) Trouble.outcome) = refreshEnd trouble? := by
  rcases trouble? with _ | (_ | _) | _ <;> rfl

/-! ## One event -/

namespace Callback

/-- What comes of an event at which the properties are refreshed. -/
structure Refreshes (k : Callback) (keyPrefix : String) : Prop where
  /-- The breadcrumb comes first: the refresh starts from the program in which it has been left, which it
  keeps however it ends. -/
  noted : ∃ note, k.event.note = .ok (some note) ∧
    (k.outcome, k.after) = (refreshIdentity keyPrefix).run (k.before.leave (note.crumb k.before.now)) ∧
    k.after.reporter = k.before.reporter.pushCrumb (note.crumb k.before.now)
  /-- On the active session the calls are made up to the first that is not served, and by that one it is told
  how the event ends. -/
  called : ∀ id x, k.before.active = some id → k.before.session? id = some x →
    (∃ y, k.after.session? id = some y ∧ x.Called (x.made (x.identityCalls keyPrefix)) y) ∧
      k.outcome = refreshEnd (x.firstTrouble (x.identityCalls keyPrefix))
  /-- Without an active session, all is well. -/
  unattended : (∀ id, k.before.active = some id → k.before.session? id = none) → k.outcome = .done ()
  /-- No other session sees anything of it. -/
  others : ∀ id, k.before.active ≠ some id → k.after.session? id = k.before.session? id

end Callback

variable {l : Listener} {keyPrefix : String} {e : Event}

theorem callback_of_trail (hl : l.behaviour = .trail keyPrefix) (e : Event) (s : Program) :
    callback l e s = ⟨s, e, ((trail keyPrefix e).run s).1, ((trail keyPrefix e).run s).2⟩ := by
  have hnotify : notify l e = trail keyPrefix e := by
    unfold notify
    rw [hl]
  rw [callback, hnotify]

theorem reporter_refreshIdentity (keyPrefix : String) (s : Program) :
    ((refreshIdentity keyPrefix).run s).2.reporter = s.reporter := by
  rw [refreshIdentity_eq]
  cases s.active with
  | none => rfl
  | some id => exact reporter_onSession id _ s

theorem session?_refreshIdentity_of_ne {s : Program} {id : SessionId} (hne : s.active ≠ some id)
    (keyPrefix : String) : ((refreshIdentity keyPrefix).run s).2.session? id = s.session? id := by
  cases ha : s.active with
  | none => rw [refreshIdentity_of_none fun id' ha' => by rw [ha] at ha'; cases ha']
  | some id' =>
    cases hx : s.session? id' with
    | none => rw [refreshIdentity_of_none fun id ha' => by rw [ha] at ha'; cases ha'; exact hx]
    | some x =>
      rw [refreshIdentity_of_active ha hx]
      exact Table.get?_set_of_ne _ _ fun h => hne (h ▸ ha)

theorem refreshes_callback (hl : l.behaviour = .trail keyPrefix) (he : e.refreshesIdentity = true)
    (s : Program) : (callback l e s).Refreshes keyPrefix := by
  obtain ⟨note, hnote, hrun⟩ := run_trail_of_refreshes keyPrefix he s
  rw [callback_of_trail hl, hrun]
  obtain ⟨t, ht⟩ : ∃ t, t = s.leave (note.crumb s.now) := ⟨_, rfl⟩
  -- Who is active, and the sessions, are the same before and after the breadcrumb.
  have hactive : t.active = s.active := by rw [ht]; rfl
  have hsession : ∀ id, t.session? id = s.session? id := fun id => by rw [ht]; rfl
  rw [← ht]
  constructor
  · refine ⟨note, hnote, by rw [ht], (reporter_refreshIdentity keyPrefix t).trans ?_⟩
    rw [ht]
    rfl
  · intro id x ha hx
    have hrefresh := refreshIdentity_of_active (hactive.trans ha) ((hsession id).trans hx) keyPrefix
    rw [Session.makeCalls_fst, ofRefresh_outcome] at hrefresh
    refine ⟨⟨_, ?_, Session.called_makeCalls _ x⟩, congrArg Prod.fst hrefresh⟩
    rw [hrefresh]
    exact Table.get?_set_self ..
  · intro hnone
    have hrefresh := refreshIdentity_of_none
      (fun id ha => (hsession id).trans (hnone id (hactive.symm.trans ha))) keyPrefix
    exact congrArg Prod.fst hrefresh
  · intro id hne
    exact (session?_refreshIdentity_of_ne (fun ha => hne (hactive.symm.trans ha)) keyPrefix).trans (hsession id)

/-- What is to be said of an event in any case. -/
theorem callback_refreshes (hl : l.behaviour = .trail keyPrefix) (e : Event) (s : Program) :
    if e.kind = .jobStart ∨ e.kind = .stageSubmitted then (callback l e s).Refreshes keyPrefix
      else (callback l e s).after.sessions = s.sessions := by
  have hkind := refreshesIdentity_eq e
  split
  · rename_i he
    exact refreshes_callback hl (hkind.trans (decide_eq_true he)) s
  · rename_i he
    rw [callback_of_trail hl]
    exact (run_trail_of_spares keyPrefix (hkind.trans (decide_eq_false he)) s).2.1

/-- Of every event in a sequence, whatever happens in between: at the start of a job and the submission of an
attempt the properties are refreshed, and at all other events nothing is done to any session. -/
theorem callbacks_refresh (hl : l.behaviour = .trail keyPrefix)
    (events : List ((Program → Program) × Event)) (s : Program) :
    ∀ k ∈ callbacks l events s, if k.event.kind = .jobStart ∨ k.event.kind = .stageSubmitted then
      k.Refreshes keyPrefix else k.after.sessions = k.before.sessions := by
  induction events generalizing s with
  | nil => exact fun k hk => nomatch hk
  | cons step rest ih =>
    intro k hk
    rcases List.mem_cons.mp hk with rfl | hk
    · exact callback_refreshes hl step.2 (step.1 s)
    · exact ih _ k hk

end SessionTrail

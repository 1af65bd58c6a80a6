import Mathlib.Data.List.Forall2
import SessionTrail.Proofs.Gone
import SessionTrail.Proofs.Identified

/-!
# A session that has stopped

Whatever is asked of a session that has stopped, its backend refuses it, or else the session does; there is no
listener left that could be detached, and to stop it once more does nothing. All that remains of such a use is
that the call was seen. Others are not touched by a stop, beyond what the events cause that it delivers.

In the shared place stands who came last, by a start or by being made the active one, unless it left: because
it was taken out, or because it was stopped while it ran.
-/
namespace SessionTrail

open Program World

namespace Session

/-- What can be asked of a session. -/
inductive Use where
  | post (e : Event)
  | read (a : Attribute)
  | readProperty (key : String)
  | write (key value : String)
  | attach (l : Listener)
  | detach (l : Listener)
  | stop

/-- What comes back from a use. -/
inductive Reply where
  | nothing
  | value (value? : Option String)
  | found (found : Bool)
deriving DecidableEq, Repr

namespace Use

/-- Use a session of a program. -/
def run (id : SessionId) : Use → Action Program CallError Reply
  | .post e => Program.post id e >>= fun _ => pure .nothing
  | .read a => onSession id (Session.read a) >>= fun value? => pure (.value value?)
  | .readProperty key => onSession id (Session.readProperty key) >>= fun value? => pure (.value value?)
  | .write key value => onSession id (Session.write key value) >>= fun _ => pure .nothing
  | .attach l => Program.attach id l >>= fun _ => pure .nothing
  | .detach l => Program.detach id l >>= fun found => pure (.found found)
  | .stop => fun s => (.done .nothing, (Program.stop id s).2)

/-- Use a session again and again: what comes back each time, and the program in the end. -/
def runAll (id : SessionId) : List Use → Program → List (Outcome CallError Reply) × Program
  | [], s => ([], s)
  | u :: rest, s =>
    let (answer, s) := (u.run id).run s
    let (answers, s) := runAll id rest s
    (answer :: answers, s)

/-- The call that the backend sees. -/
def call? : Use → Option Call
  | .read a => some (.read a)
  | .write key value => some (.write key value)
  | .attach _ => some .attach
  | .detach _ => some .detach
  | .post _ | .readProperty _ | .stop => none

/-- How a session that has stopped answers. -/
def refusal : Use → Outcome CallError Reply
  | .detach _ => .done (.found false)
  | .stop => .done .nothing
  | _ => .failed .stopped

/-- How a session that has stopped answers, unless its backend does so before. -/
def refusedBy (x : Session) (u : Use) : Outcome CallError Reply :=
  (u.call?.bind (x.backend.trouble x.history)).elim u.refusal Trouble.outcome

end Use

/-- A session that has seen some more calls. -/
def afterCalls (x : Session) (cs : List Call) : Session :=
  { x with history := x.history ++ cs, log := x.log ++ cs }

theorem afterCalls_nil (x : Session) : x.afterCalls [] = x := by
  simp only [afterCalls, List.append_nil]

theorem afterCalls_append (x : Session) (cs ds : List Call) :
    x.afterCalls (cs ++ ds) = (x.afterCalls cs).afterCalls ds := by
  simp only [afterCalls, List.append_assoc]

variable {x : Session}

/-- A session that has stopped does not get beyond the call itself. -/
theorem run_attempt_of_stopped {α : Type} (hs : x.stopped = true) (c : Call)
    (next : Unit → Action Session CallError α) : (attempt c >>= next).run x =
      ((x.backend.trouble x.history c).elim (.failed .stopped) Trouble.outcome, x.afterCalls [c]) := by
  rw [Action.run_bind, run_attempt, troubleWith, Backend.troubleWith, hs, if_pos rfl]
  rcases x.backend.trouble x.history c with _ | (e | _) <;> rfl

theorem run_readProperty_of_stopped (hs : x.stopped = true) (key : String) :
    (readProperty key).run x = (.failed .stopped, x) := by
  rw [readProperty, Action.run_bind, Action.run_get]
  simp only [hs, if_true]
  rfl

end Session

open Session

/-! ## Uses of a session that has stopped -/

namespace Program

variable {s : Program} {id : SessionId} {x : Session}

/-- What an action leaves of a session, it leaves in the program. -/
theorem run_onSession_bind {α β : Type} {m : Action Session CallError α} (next : α → β)
    {e : Outcome CallError α} {cs : List Call} (hx : s.session? id = some x)
    (hm : m.run x = (e, x.afterCalls cs)) :
    (onSession id m >>= fun a => pure (next a)).run s =
      (e.map next, s.modifySession id (·.afterCalls cs)) := by
  rw [Action.run_bind, run_onSession hx, hm, modifySession_of_some hx]
  cases e <;> rfl

theorem settle_of_no_workers (hx : s.session? id = some x) (hw : x.workers = []) :
    settle id s = ([], s) := by
  simp only [settle, flush, hx, Option.map_some, Option.getD_some, hw, backlog, List.foldl_nil, rounds]

/-- To stop a session once more does nothing. -/
theorem stop_of_stopped (hx : s.session? id = some x) (hs : x.stopped = true) (hw : x.workers = []) :
    (stop id s).2 = s := by
  change markStopped id ((settle id s).2.modifySession id _) = s
  rw [settle_of_no_workers hx hw]
  have hsame : s.modifySession id (fun session => session.workers.foldl Session.endWorker session) = s := by
    rw [modifySession, Table.modify_of_get? hx]
    simp only [hw, List.foldl_nil]
  rw [hsame]
  simp only [markStopped, hx, hs, if_true]

/-- A session that has stopped and has no listeners answers to each use by a refusal, and nothing is left of
it but the call. -/
theorem run_use_of_stopped (hx : s.session? id = some x) (hs : x.stopped = true) (hw : x.workers = [])
    (u : Use) : (u.run id).run s =
      (u.refusedBy x, s.modifySession id (·.afterCalls u.call?.toList)) := by
  have hnone : s.modifySession id (·.afterCalls []) = s := by
    rw [modifySession, Table.modify_of_get? hx x.afterCalls_nil]
  cases u with
  | post e =>
    have hm : (Session.post e).run x = (.failed .stopped, x.afterCalls []) := by
      rw [run_post_of_stopped e hs, x.afterCalls_nil]
    exact run_onSession_bind _ hx hm
  | readProperty key =>
    have hm : (Session.readProperty key).run x = (.failed .stopped, x.afterCalls []) := by
      rw [run_readProperty_of_stopped hs key, x.afterCalls_nil]
    exact run_onSession_bind _ hx hm
  | read a =>
    refine (run_onSession_bind _ hx (run_attempt_of_stopped hs (.read a) _)).trans ?_
    rw [Use.refusedBy, Use.call?, Option.bind_some]
    rcases x.backend.trouble x.history (.read a) with _ | (e | _) <;> rfl
  | write key value =>
    refine (run_onSession_bind _ hx (run_attempt_of_stopped hs (.write key value) _)).trans ?_
    rw [Use.refusedBy, Use.call?, Option.bind_some]
    rcases x.backend.trouble x.history (.write key value) with _ | (e | _) <;> rfl
  | attach l =>
    refine (run_onSession_bind _ hx (run_attempt_of_stopped hs .attach _)).trans ?_
    rw [Use.refusedBy, Use.call?, Option.bind_some]
    rcases x.backend.trouble x.history .attach with _ | (e | _) <;> rfl
  | detach l =>
    have hy : ({ s with sessions := s.sessions.set id (x.note .detach) } : Program).session? id =
        some (x.note .detach) := Table.get?_set_self ..
    have hfind : (x.note .detach).workerOf? l.id = none := by
      change x.workers.find? _ = none
      rw [hw, List.find?_nil]
    have hend : endWorkerOf id l.id { s with sessions := s.sessions.set id (x.note .detach) } =
        (false, { s with sessions := s.sessions.set id (x.note .detach) }) := by
      simp only [endWorkerOf, hy, Option.bind_some, hfind]
    change (Program.detach id l >>= fun found => pure (Reply.found found)).run s = _
    rw [Action.run_bind, run_detach, run_onSession hx, run_consult, modifySession_of_some hx, Use.refusedBy,
      Use.call?, Option.bind_some]
    rcases x.backend.trouble x.history .detach with _ | (e | _)
    · simp only [Option.elim_none, hend]
      rfl
    · rfl
    · rfl
  | stop =>
    change (Outcome.done Reply.nothing, (stop id s).2) = _
    rw [stop_of_stopped hx hs hw]
    exact congrArg (Prod.mk _) hnone.symm

/-- Whatever uses are made of a session that has stopped, each is refused by the backend or by the session,
and nothing is left of them but the calls. -/
theorem runAll_uses_of_stopped (hx : s.session? id = some x) (hs : x.stopped = true) (hw : x.workers = [])
    (uses : List Use) : ∃ answers,
      Use.runAll id uses s = (answers, s.modifySession id (·.afterCalls (uses.filterMap Use.call?))) ∧
      List.Forall₂ (fun u answer => answer = u.refusal ∨ ∃ history c t, u.call? = some c ∧
        x.backend.trouble history c = some t ∧ answer = t.outcome) uses answers := by
  induction uses generalizing s x with
  | nil =>
    refine ⟨[], ?_, .nil⟩
    rw [List.filterMap_nil, modifySession, Table.modify_of_get? hx x.afterCalls_nil]
    rfl
  | cons u rest ih =>
    have hy : (s.modifySession id (·.afterCalls u.call?.toList)).session? id =
        some (x.afterCalls u.call?.toList) := by
      rw [session?_modifySession, if_pos rfl, hx, Option.map_some]
    obtain ⟨answers, hrest, hall⟩ := ih hy hs hw
    refine ⟨u.refusedBy x :: answers, ?_, .cons ?_ hall⟩
    · have hcalls : (u :: rest).filterMap Use.call? = u.call?.toList ++ rest.filterMap Use.call? := by
        rw [List.filterMap_cons]
        cases u.call? <;> rfl
      rw [Use.runAll, run_use_of_stopped hx hs hw, hcalls]
      simp only [hrest, modifySession_modifySession, ← afterCalls_append]
    · rw [Use.refusedBy]
      cases hc : u.call? with
      | none => exact .inl rfl
      | some c =>
        rw [Option.bind_some]
        cases ht : x.backend.trouble x.history c with
        | none => exact .inl rfl
        | some t => exact .inr ⟨x.history, c, t, rfl, ht, rfl⟩

end Program

/-! ## The shared place -/

/-- Whether nobody comes to the shared place in a run and one session, should it stand there, does not leave
it. -/
def Undisturbed (id : SessionId) : List Operation → World → Prop
  | [], _ => True
  | o :: rest, w => o.entered w = none ∧ o.left w ≠ some id ∧ Undisturbed id rest (o.next w)

/-- In a run a session comes to the shared place, after which it is not disturbed there. -/
def CameLast (id : SessionId) (ops : List Operation) (w : World) : Prop :=
  ∃ before o after, ops = before ++ o :: after ∧ o.entered (perform before w) = some id ∧
    Undisturbed id after (perform (before ++ [o]) w)

/-- Whether who comes to the shared place by being made the active session runs then, and has its home
there. -/
def EntersRunning : List Operation → World → Prop
  | [], _ => True
  | o :: rest, w => (∀ id, o = .makeActive id → w.program.isReachable id = true →
      w.program.runsShared id = true) ∧ EntersRunning rest (o.next w)

theorem cameLast_cons {id : SessionId} {o : Operation} {rest : List Operation} {w : World} :
    CameLast id (o :: rest) w ↔
      o.entered w = some id ∧ Undisturbed id rest (o.next w) ∨ CameLast id rest (o.next w) := by
  constructor
  · rintro ⟨before, p, after, he, hp, hu⟩
    cases before with
    | nil =>
      obtain ⟨rfl, rfl⟩ := List.cons.inj he
      exact .inl ⟨hp, hu⟩
    | cons q before =>
      obtain ⟨rfl, rfl⟩ := List.cons.inj he
      exact .inr ⟨before, p, after, rfl, hp, hu⟩
  · rintro (⟨ho, hu⟩ | ⟨before, p, after, rfl, hp, hu⟩)
    · exact ⟨[], o, rest, rfl, ho, hu⟩
    · exact ⟨o :: before, p, after, rfl, hp, hu⟩

namespace World

variable {w : World} {left : InstallerId → SessionId → Nat} {id : SessionId}

theorem active_next_iff (h : w.Sound left) (o : Operation) : (o.next w).program.active = some id ↔
    o.entered w = some id ∨ o.entered w = none ∧ o.left w ≠ some id ∧ w.program.active = some id := by
  rw [active_next h o]
  cases o.entered w with
  | some entered => simp
  | none =>
    rw [Option.none_or]
    by_cases hl : o.left w = w.program.active
    · rw [if_pos hl, ← hl]
      exact ⟨nofun, fun hor => hor.elim nofun fun hand => absurd hand.2.2 hand.2.1⟩
    · rw [if_neg hl]
      refine ⟨fun ha => .inr ⟨rfl, fun he => hl (he.trans ha.symm), ha⟩, ?_⟩
      exact fun hor => hor.elim nofun fun hand => hand.2.2

/-- In the end the session stands in the shared place that came last and was not disturbed since, or the one
that stood there at first, if nobody came and it did not leave. -/
theorem active_perform (h : w.Sound left) (ops : List Operation) :
    (perform ops w).program.active = some id ↔
      CameLast id ops w ∨ w.program.active = some id ∧ Undisturbed id ops w := by
  induction ops generalizing w left with
  | nil =>
    refine ⟨fun ha => .inr ⟨ha, trivial⟩, fun hor => hor.elim ?_ And.left⟩
    rintro ⟨before, o, after, he, -⟩
    cases before <;> cases he
  | cons o rest ih =>
    have hrest := ih (h.next o)
    rw [active_next_iff h o] at hrest
    rw [cameLast_cons]
    refine hrest.trans ⟨?_, ?_⟩
    · rintro (hlast | ⟨hcame | ⟨hnone, hstays, ha⟩, hu⟩)
      · exact .inl (.inr hlast)
      · exact .inl (.inl ⟨hcame, hu⟩)
      · exact .inr ⟨ha, hnone, hstays, hu⟩
    · rintro ((⟨hcame, hu⟩ | hlast) | ⟨ha, hnone, hstays, hu⟩)
      · exact .inr ⟨.inl hcame, hu⟩
      · exact .inl hlast
      · exact .inr ⟨.inr ⟨hnone, hstays, ha⟩, hu⟩

/-- If who stands in the shared place runs and has its home there, so it is after an operation that brings
nobody else there. -/
theorem active_runs_next (h : w.Sound left) (o : Operation)
    (henters : ∀ id, o = .makeActive id → w.program.isReachable id = true →
      w.program.runsShared id = true)
    (hruns : ∀ id, w.program.active = some id → w.program.runsShared id = true) :
    ∀ id, (o.next w).program.active = some id → (o.next w).program.runsShared id = true := by
  have keeps : ∀ id, w.program.runsShared id = true → o ≠ .stop id →
      (o.next w).program.runsShared id = true := by
    intro id hr hne
    obtain ⟨x, hx, hxs, hxh⟩ := runsShared_iff.mp hr
    obtain ⟨y, hy, _, _, _, hsame⟩ := session?_next h o hx
    obtain ⟨hstopped, hhome⟩ := hsame hne
    exact runsShared_iff.mpr ⟨y, hy, hstopped.trans hxs, hhome.trans hxh⟩
  intro id ha
  rcases (active_next_iff h o).mp ha with hcame | ⟨_, hstays, hactive⟩
  · cases o with
    | start id' settings backend detached =>
      by_cases hkeep : detached = true ∨ w.program.sessions.contains id' = true
      · rw [Operation.entered, if_pos hkeep] at hcame
        cases hcame
      · rw [Operation.entered, if_neg hkeep, Option.some.injEq] at hcame
        subst hcame
        obtain ⟨hd, hc⟩ := not_or.mp hkeep
        simp only [Operation.next, update, start, if_neg hd, if_neg hc]
        exact runsShared_iff.mpr ⟨_, Table.get?_set_self .., rfl, rfl⟩
    | makeActive id' =>
      by_cases hr : w.program.isReachable id' = true
      · rw [Operation.entered, if_pos hr, Option.some.injEq] at hcame
        subst hcame
        exact keeps _ (henters _ rfl hr) fun he => by cases he
      · rw [Operation.entered, if_neg hr] at hcame
        cases hcame
    | _ => cases hcame
  · have hr := hruns id hactive
    refine keeps id hr fun he => hstays ?_
    subst he
    obtain ⟨x, hx, _⟩ := runsShared_iff.mp hr
    exact if_pos ⟨isReachable_iff.mpr ⟨x, hx, .inr (.inl hactive)⟩, hr⟩

theorem active_runs_perform (h : w.Sound left) {ops : List Operation} (henters : EntersRunning ops w)
    (hruns : ∀ id, w.program.active = some id → w.program.runsShared id = true) :
    ∀ id, (perform ops w).program.active = some id → (perform ops w).program.runsShared id = true := by
  induction ops generalizing w left with
  | nil => exact hruns
  | cons o rest ih => exact ih (h.next o) henters.2 (active_runs_next h o henters.1 hruns)

/-- A session that has stopped never runs again. -/
theorem hasStopped_perform (h : w.Sound left) (ops : List Operation)
    (hs : w.program.hasStopped id = true) : (perform ops w).program.hasStopped id = true := by
  induction ops generalizing w left with
  | nil => exact hs
  | cons o rest ih => exact ih (h.next o) ((keepsGone_next h o).stopped id hs)

end World

/-- Stopping a session delivers what is queued there, leaves it stopped and without listeners, takes it out of
the shared place if it ran and stood there, and changes nothing else. It is then stopped for good, and every
use of it is refused and leaves no trace but its call. Whatever happens, in the shared place stands who came
last and has not left since. So as long as none comes there that does not run, or is at home elsewhere, no
session that stands there has stopped; and nobody else is ever taken out by stopping a session. -/
theorem stopped_session_is_inert (now : Timestamp) (retention : Retention) (cs : List Command) :
    let start := initial now retention
    let w := Command.runAll cs start
    let s := w.program
    (∀ id x, s.session? id = some x → ∃ z bus, (settle id s).2.session? id = some z ∧
      z.profile = x.profile ∧
      (stop id s).2 = { (settle id s).2 with
        sessions := (settle id s).2.sessions.set id (z.over bus)
        active := if s.runsShared id ∧ s.active = some id then none else s.active }) ∧
    (∀ id, s.isReachable id = true → ∀ more,
      (Command.runAll (.operation (.stop id) :: more) w).program.hasStopped id = true) ∧
    (∀ id x, s.session? id = some x → x.stopped = true → ∀ uses : List Use, ∃ answers,
      Use.runAll id uses s = (answers, s.modifySession id (·.afterCalls (uses.filterMap Use.call?))) ∧
      List.Forall₂ (fun u answer => answer = u.refusal ∨ ∃ history c t, u.call? = some c ∧
        x.backend.trouble history c = some t ∧ answer = t.outcome) uses answers ∧
      ((∀ history c, x.backend.trouble history c = none) → answers = uses.map Use.refusal)) ∧
    (∀ id, s.active = some id ↔ CameLast id (Command.allOperations cs start) start) ∧
    (EntersRunning (Command.allOperations cs start) start →
      ∀ id, s.active = some id → s.hasStopped id = false) ∧
    (∀ id a, s.active = some a → a ≠ id → (stop id s).2.active = some a) := by
  intro start w s
  obtain ⟨left, hsound⟩ := sound_runAll now retention cs
  have hrun : w = perform (Command.allOperations cs start) start := Command.runAll_eq_perform cs start
  refine ⟨fun id x hx => ?_, fun id hr more => ?_, fun id x hx hs uses => ?_, fun id => ?_,
    fun henters id ha => ?_, fun id a ha hne => ?_⟩
  · obtain ⟨z, hz, hzx⟩ := (SameProfiles.of_outline_eq (settle_outline id s)).session? hx
    obtain ⟨bus, hstop⟩ := stop_program hz
    exact ⟨z, bus, hz, hzx, hstop⟩
  · have hstopped : ((Operation.stop id).next w).program.hasStopped id = true := by
      obtain ⟨x, hx, _⟩ := isReachable_iff.mp hr
      obtain ⟨z, hz, _⟩ := (SameProfiles.of_outline_eq (settle_outline id s)).session? hx
      obtain ⟨bus, hstop⟩ := stop_program hz
      rw [(stop_of_reachable hr).1, hstop]
      exact hasStopped_iff.mpr ⟨z.over bus, Table.get?_set_self .., rfl⟩
    have hmore : Command.runAll (.operation (.stop id) :: more) w =
        perform (Command.allOperations more ((Operation.stop id).next w)) ((Operation.stop id).next w) :=
      Command.runAll_eq_perform more _
    rw [hmore]
    exact hasStopped_perform (hsound.next _) _ hstopped
  · have hw : x.workers = [] := hsound.program.stopped_empty id x hx hs
    obtain ⟨answers, hall, hrefused⟩ := runAll_uses_of_stopped hx hs hw uses
    refine ⟨answers, hall, hrefused, fun hb => ?_⟩
    have hexact : List.Forall₂ (fun u answer => Use.refusal u = answer) uses answers := by
      refine hrefused.imp fun u answer hor => ?_
      rcases hor with he | ⟨history, c, t, -, ht, -⟩
      · exact he.symm
      · rw [hb] at ht
        cases ht
    have hmap := List.forall₂_map_left_iff.mpr hexact
    rw [List.forall₂_eq_eq_eq] at hmap
    exact hmap.symm
  · rw [show s = _ from congrArg World.program hrun, active_perform (sound_initial now retention)]
    exact or_iff_left fun hand => nomatch hand.1
  · have hruns := active_runs_perform (sound_initial now retention) henters (fun id ha => nomatch ha) id
    rw [← hrun] at hruns
    obtain ⟨x, hx, hxs, _⟩ := runsShared_iff.mp (hruns ha)
    rw [hasStopped, hx, Option.any_some, hxs]
  · rw [active_stop, ha, if_neg]
    exact fun hand => hne (Option.some.inj hand.2)

/-- A session that is replaced by another one, has its last event delivered by a stop, and is asked for more. -/
def outlivedRun : List Command :=
  [.operation (.start ⟨⟨0⟩⟩ (.standard (some "ada")) .sound false), .operation (.newListener (.trail "")),
    .operation (.attach ⟨⟨0⟩⟩ ⟨⟨0⟩, .trail "", none⟩),
    .operation (.start ⟨⟨1⟩⟩ (.standard (some "bob")) .sound false),
    .operation (.post ⟨⟨0⟩⟩ (.applicationEnd .epoch)), .operation (.stop ⟨⟨0⟩⟩)]

theorem outlived_session_is_inert :
    let s := (Command.runAll outlivedRun (initial .epoch .standard)).program
    let uses : List Use := [.post (.applicationEnd .epoch), .write "key" "value", .read (.fact .appName),
      .detach ⟨⟨0⟩, .trail "", none⟩, .stop]
    s.hasStopped ⟨⟨0⟩⟩ = true ∧
      (Use.runAll ⟨⟨0⟩⟩ uses s).1 =
        [.failed .stopped, .failed .stopped, .failed .stopped, .done (.found false), .done .nothing] ∧
      EntersRunning (Command.allOperations outlivedRun (initial .epoch .standard)) (initial .epoch .standard) ∧
      s.active = some ⟨⟨1⟩⟩ ∧ s.hasStopped ⟨⟨1⟩⟩ = false ∧ (stop ⟨⟨0⟩⟩ s).2.active = some ⟨⟨1⟩⟩ := by
  intro s uses
  obtain ⟨_, _, hinert, _, hruns, hothers⟩ := stopped_session_is_inert .epoch .standard outlivedRun
  have henters : EntersRunning (Command.allOperations outlivedRun (initial .epoch .standard))
      (initial .epoch .standard) := by
    refine ⟨?_, ?_, ?_, ?_, ?_, ?_, trivial⟩ <;> exact fun _ he => nomatch he
  have hactive : s.active = some ⟨⟨1⟩⟩ := by decide
  have hstopped : s.hasStopped ⟨⟨0⟩⟩ = true := by decide
  obtain ⟨x, hx, hxs⟩ := hasStopped_iff.mp hstopped
  have hback : (s.session? ⟨⟨0⟩⟩).map (·.backend) = some .sound := rfl
  have hsound : x.backend = .sound := by
    rw [hx, Option.map_some, Option.some.injEq] at hback
    exact hback
  obtain ⟨answers, hall, -, hexact⟩ := hinert _ x hx hxs uses
  refine ⟨hstopped, ?_, henters, hactive, hruns henters _ hactive, hothers _ _ hactive (by decide)⟩
  rw [hall, hexact fun history c => by rw [hsound]; rfl]
  rfl

/-- A session that has stopped and is made the active one all the same stands in the shared place, and to stop
it once more does not take it out. -/
theorem stop_leaves_reentered_session :
    ¬ ∀ (cs : List Command) (id : SessionId),
      let s := (Command.runAll cs (initial .epoch .standard)).program
      (stop id s).2.active = if s.active = some id then none else s.active := by
  intro h
  have hlast := h [.operation (.start ⟨⟨0⟩⟩ (.standard none) .sound false), .operation (.stop ⟨⟨0⟩⟩),
    .operation (.makeActive ⟨⟨0⟩⟩)] ⟨⟨0⟩⟩
  revert hlast
  decide

end SessionTrail

import SessionTrail.Proofs.Enrichers
import SessionTrail.Proofs.Overlook

/-!
# The program without its installers

Only installations and set-ups look at the installers and integrations. Any other operation does the same to a
program that has none, and shows the same.
-/
namespace SessionTrail

open SessionTrail.Action (Overlooks)

open Program World

namespace Program

/-- A program without installers and integrations. -/
def untrailed (s : Program) : Program := { s with installers := {}, integrations := {} }

/-- A step of a program that does not look at installers and integrations, and gives a result. -/
def Blind {α : Type} (f : Program → α × Program) : Prop :=
  ∀ s, f s.untrailed = ((f s).1, (f s).2.untrailed)

theorem Blind.fst {α : Type} {f : Program → α × Program} (h : Blind f) (s : Program) :
    (f s.untrailed).1 = (f s).1 := by rw [h s]

theorem Blind.snd {α : Type} {f : Program → α × Program} (h : Blind f) (s : Program) :
    (f s.untrailed).2 = (f s).2.untrailed := by rw [h s]

theorem modifySession_untrailed (s : Program) (id : SessionId) (f : Session → Session) :
    s.untrailed.modifySession id f = (s.modifySession id f).untrailed := rfl

theorem start_untrailed (s : Program) (id : SessionId) (settings : Settings) (backend : Backend)
    (home : Home) : s.untrailed.start id settings backend home =
      (s.start id settings backend home).untrailed := by
  have hc : s.untrailed.sessions.contains id = s.sessions.contains id := rfl
  unfold start
  rw [hc]
  split <;> rfl

theorem onSession_untrailed {α : Type} (id : SessionId) (m : Action Session CallError α) :
    (onSession id m).Overlooks untrailed := by
  intro s
  have hu : s.untrailed.session? id = s.session? id := rfl
  cases hx : s.session? id with
  | none => rw [run_onSession_of_none hx, run_onSession_of_none (hu.trans hx)]
  | some x =>
    rw [run_onSession hx, run_onSession (hu.trans hx)]
    rfl

/-- Listeners do not look at installers and integrations. -/
theorem unseen_untrailed : Unseen untrailed where
  now_eq _ := rfl
  active_eq _ := rfl
  leave_eq _ _ := rfl
  record_eq _ _ _ := rfl
  writes keyPrefix id := by
    cases id with
    | none => exact Action.overlooks_pure _
    | some id => exact onSession_untrailed id _

/-! ## Deliveries -/

theorem turn_untrailed (id : SessionId) (v : Worker) : Blind (turn id v) := by
  intro s
  have hu : s.untrailed.session? id = s.session? id := rfl
  cases hx : s.session? id with
  | none =>
    have hn : ∀ t : Program, t.session? id = none → turn id v t = ([], t) := fun t ht =>
      turn_of_empty fun x h => by rw [ht] at h; cases h
    rw [hn s hx, hn s.untrailed (hu.trans hx)]
  | some x =>
    cases hq : x.bus.queue v.subscription with
    | nil =>
      have hn : ∀ t : Program, t.session? id = some x → turn id v t = ([], t) := fun t ht =>
        turn_of_empty fun y h => by rw [ht] at h; cases h; exact hq
      rw [hn s hx, hn s.untrailed (hu.trans hx)]
    | cons e rest =>
      have hn := unseen_untrailed.notify v.listener e
        (s.modifySession id (·.withBus (x.bus.receive v.subscription).2))
      rw [turn_of_queue hx hq, turn_of_queue (hu.trans hx) hq]
      simp only [modifySession_untrailed, hn]
      split <;> rfl

theorem round_untrailed (id : SessionId) (workers : List Worker) : Blind (round id workers) := by
  induction workers with
  | nil => exact fun _ => rfl
  | cons v rest ih =>
    intro s
    simp only [Program.round]
    rw [turn_untrailed id v s]
    simp only [ih (turn id v s).2]

theorem rounds_untrailed (id : SessionId) (workers : List Worker) (n : Nat) :
    Blind (rounds id workers n) := by
  induction n with
  | zero => exact fun _ => rfl
  | succ n ih =>
    intro s
    simp only [Program.rounds]
    rw [round_untrailed id workers s]
    simp only [ih (round id workers s).2]

theorem flush_untrailed (id : SessionId) (workers : List Worker) : Blind (flush id workers) := by
  intro s
  have hu : s.untrailed.session? id = s.session? id := rfl
  unfold flush
  rw [hu]
  split
  · exact rounds_untrailed id workers _ s
  · rfl

theorem clearActive_untrailed (id : SessionId) (s : Program) :
    s.untrailed.clearActive id = ((s.clearActive id).1, (s.clearActive id).2.untrailed) := by
  have ha : s.untrailed.active = s.active := rfl
  unfold clearActive
  rw [ha]
  split <;> rfl

theorem markStopped_untrailed (id : SessionId) (s : Program) :
    markStopped id s.untrailed = (markStopped id s).untrailed := by
  have hu : s.untrailed.session? id = s.session? id := rfl
  unfold markStopped
  rw [hu]
  split
  · rfl
  · split
    · rfl
    · simp only [modifySession_untrailed]
      split
      · rw [clearActive_untrailed]
      · rfl

theorem stop_untrailed (id : SessionId) : Blind (stop id) := by
  intro s
  have hu : s.untrailed.session? id = s.session? id := rfl
  simp only [stop, settle, hu]
  rw [flush_untrailed id _ s]
  simp only [modifySession_untrailed, markStopped_untrailed]

theorem endWorkerOf_untrailed (id : SessionId) (l : ListenerId) : Blind (endWorkerOf id l) := by
  intro s
  have hu : s.untrailed.session? id = s.session? id := rfl
  unfold endWorkerOf
  rw [hu]
  split
  · rfl
  · rw [flush_untrailed id _ s]
    rfl

theorem detach_untrailed (id : SessionId) (l : Listener) : (detach id l).Overlooks untrailed := by
  intro s
  rw [run_detach, run_detach, onSession_untrailed id _ s]
  rcases (onSession id (Session.consult .detach)).run s with ⟨_ | _ | _, t⟩
  · simp only
    rw [endWorkerOf_untrailed id l.id t]
  · rfl
  · rfl

/-! ## Submissions -/

theorem fillAlong_untrailed (id : SessionId) (plan : List (Place × Attribute)) (report : Report)
    (s : Program) :
    Report.fillAlong (fun a => onSession id (Session.read a)) plan report s.untrailed =
      let r := Report.fillAlong (fun a => onSession id (Session.read a)) plan report s
      (r.1, r.2.1, r.2.2.untrailed) := by
  induction plan generalizing report s with
  | nil => rfl
  | cons step rest ih =>
    obtain ⟨place, a⟩ := step
    simp only [Report.fillAlong]
    split
    · exact ih report s
    · rw [onSession_untrailed id (Session.read a) s]
      rcases (onSession id (Session.read a)).run s with ⟨⟨_ | value⟩ | _ | _, t⟩
      · exact ih report t
      · exact ih _ t
      · rfl
      · rfl

theorem runEnricher_untrailed (e : Enricher) (report : Report) : Blind (runEnricher e report) := by
  intro s
  have ht : s.untrailed.isTarget e = s.isTarget e := rfl
  unfold runEnricher
  rw [ht]
  split
  · simp only [fillReport, Report.fillByPlan]
    rw [fillAlong_untrailed e.session enrichmentPlan report s]
  · rfl

theorem runProcessor_untrailed (hint : Hint) (p : Processor) (report : Report) :
    Blind (runProcessor hint p report) := by
  intro s
  cases p with
  | enricher e =>
    simp only [runProcessor]
    rw [runEnricher_untrailed e report s]
  | rule r =>
    simp only [runProcessor, runRule]
    split <;> rfl

theorem process_untrailed (hint : Hint) (processors : List Processor) (report : Report) :
    Blind (Reporter.process (runProcessor hint) processors report) := by
  induction processors generalizing report with
  | nil => exact fun _ => rfl
  | cons p rest ih =>
    intro s
    simp only [Reporter.process]
    rw [runProcessor_untrailed hint p report s]
    rcases runProcessor hint p report s with ⟨_ | next, t⟩
    · rfl
    · exact ih next t

theorem submit_untrailed (report : Report) (hint : Hint) : Blind (submit report hint) := by
  intro s
  have hp := process_untrailed hint (s.reporter.processors.map (·.2)) (s.reporter.withCrumbs report) s
  have hr : s.untrailed.reporter = s.reporter := rfl
  simp only [submit, hr]
  rw [hp]
  generalize Reporter.process (runProcessor hint) (s.reporter.processors.map (·.2))
    (s.reporter.withCrumbs report) s = r
  rcases r with ⟨_ | final, t⟩ <;> rfl

end Program

/-! ## Worlds -/

namespace World

/-- A world without installers and integrations. -/
def untrailed (w : World) : World := { program := w.program.untrailed, listeners := w.listeners }

variable {w : World} {id : SessionId} {f : Program → Program}

theorem update_untrailed (h : f w.program.untrailed = (f w.program).untrailed) :
    w.untrailed.update f = (w.update f).untrailed :=
  congrArg (fun s => World.mk s [] w.listeners) h

theorem through_untrailed (h : f w.program.untrailed = (f w.program).untrailed) :
    w.untrailed.through id f = (w.through id f).untrailed := by
  have hr : w.untrailed.program.isReachable id = w.program.isReachable id := rfl
  unfold through
  rw [hr]
  split
  · exact update_untrailed h
  · rfl

/-- An operation that has nothing to do with installers and integrations goes the same way without them. -/
theorem next_untrailed (w : World) {o : Operation} (ho : o.isIdle = true) :
    o.next w.untrailed = (o.next w).untrailed := by
  have hblind : ∀ {id : SessionId} {α : Type} {f : Program → α × Program}, Blind f →
      (w.untrailed.through id fun s => (f s).2) = (w.through id fun s => (f s).2).untrailed :=
    fun hf => through_untrailed (hf.snd _)
  cases o with
  | start id settings backend detached =>
    exact update_untrailed (f := (·.start id settings backend _)) (start_untrailed _ id settings backend _)
  | stop id => exact hblind (stop_untrailed id)
  | read id a => exact hblind (onSession_untrailed id _)
  | write id key value => exact hblind (onSession_untrailed id _)
  | post id e => exact hblind (onSession_untrailed id _)
  | turn id number =>
    have hw : w.untrailed.worker? id number = w.worker? id number := rfl
    simp only [Operation.next, hw]
    split
    · exact update_untrailed ((turn_untrailed id _).snd _)
    · rfl
  | makeActive id => exact through_untrailed rfl
  | clearActive id =>
    exact update_untrailed (f := fun s => (s.clearActive id).2) (by rw [clearActive_untrailed])
  | attach id l =>
    have hl : w.untrailed.listeners = w.listeners := rfl
    simp only [Operation.next, hl]
    split
    · exact hblind (onSession_untrailed id _)
    · rfl
  | detach id l =>
    have hl : w.untrailed.listeners = w.listeners := rfl
    simp only [Operation.next, hl]
    split
    · exact hblind (detach_untrailed id l)
    · rfl
  | submit report hint =>
    exact update_untrailed (f := fun s => (Program.submit report hint s).2)
      ((submit_untrailed report hint).snd _)
  | tick | release | setBackend | newListener | enable | disable | leave | clearCrumbs | register
  | unregister => rfl
  | newInstaller | ensureInstalled | forgetGone | newIntegration | setUp => cases ho

theorem deliveries_untrailed (w : World) (o : Operation) :
    o.deliveries w.untrailed = o.deliveries w := by
  have hd : ∀ id h, w.untrailed.deliveries id h = w.deliveries id h := fun _ _ => rfl
  cases o with
  | turn id number =>
    have hw : w.untrailed.worker? id number = w.worker? id number := rfl
    simp only [Operation.deliveries, hw, hd]
    split
    · exact congrArg (w.deliveries id) ((turn_untrailed id _).fst w.program)
    · rfl
  | stop id =>
    have hr : w.untrailed.program.isReachable id = w.program.isReachable id := rfl
    simp only [Operation.deliveries, hr, hd]
    split
    · exact congrArg (w.deliveries id) ((stop_untrailed id).fst w.program)
    · rfl
  | detach id l =>
    have hr : w.untrailed.program.isReachable id = w.program.isReachable id := rfl
    have hl : w.untrailed.listeners = w.listeners := rfl
    have hc : (onSession id (Session.consult .detach)).run w.untrailed.program =
        (((onSession id (Session.consult .detach)).run w.program).1,
          ((onSession id (Session.consult .detach)).run w.program).2.untrailed) :=
      onSession_untrailed id (Session.consult .detach) w.program
    simp only [Operation.deliveries, hr, hl, hd, hc]
    split
    · rcases (onSession id (Session.consult .detach)).run w.program with ⟨_ | _ | _, t⟩
      · have hs : t.untrailed.session? id = t.session? id := rfl
        simp only [hs]
        split
        · exact congrArg (w.deliveries id) ((flush_untrailed id _).fst t)
        · rfl
      · rfl
      · rfl
    · rfl
  | _ => rfl

theorem postings_untrailed (w : World) (o : Operation) : o.postings w.untrailed = o.postings w := by
  cases o with
  | post id e =>
    have hr : w.untrailed.program.isReachable id = w.program.isReachable id := rfl
    have hs : w.untrailed.program.session? id = w.program.session? id := rfl
    have hp : ((Program.post id e).run w.untrailed.program).1 = ((Program.post id e).run w.program).1 :=
      Blind.fst (onSession_untrailed id (Session.post e)) w.program
    simp only [Operation.postings, hr, hs, hp]
  | _ => rfl

end World

end SessionTrail

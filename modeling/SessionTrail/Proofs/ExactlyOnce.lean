import SessionTrail.Proofs.Crumbs

/-!
# Exactly one telling of every event

In a run without crashes the breadcrumbs that an installer's listener leaves at a session are, once the
session has stopped, what is to be told of the events that were posted while the listener was attached,
in the order of posting. The reporter gets them in the order of the deliveries, in which the sessions
interleave.
-/
namespace SessionTrail

open Program World

/-- The breadcrumbs that the listeners of an installer leave of the events of a session. -/
def contributed (ds : List Delivery) (g : InstallerId) (id : SessionId) : List Breadcrumb :=
  (ds.filter fun d => d.session = id ∧ d.worker.isOf g = true).flatMap Delivery.crumbs

/-- Whether a delivery to an installer's listener leaves what is to be told of the event. -/
def Delivery.Tells (d : Delivery) : Prop :=
  ∀ g, d.worker.isOf g = true → d.crumbs.map Breadcrumb.content = d.event.crumbs

namespace World

variable {w : World} {left : InstallerId → SessionId → Nat}

theorem tells_of_mem (h : w.Sound left) {o : Operation} {d : Delivery} (hd : d ∈ o.deliveries w) :
    d.Tells := by
  intro g hg
  obtain ⟨x, hx, hm⟩ := worker_of_delivery hd
  rcases h.program.trail d.session x hx d.worker hm with ho | ⟨keyPrefix, hb⟩
  · simp [Worker.isOf, ho] at hg
  · exact crumbs_of_trail hb d.time d.event

theorem tells_of_mem_along (h : w.Sound left) {ops : List Operation} {d : Delivery}
    (hd : d ∈ along Operation.deliveries ops w) : d.Tells := by
  obtain ⟨first, o, rest, _, ho⟩ := mem_along hd
  exact tells_of_mem (h.perform first) ho

/-- What an installer's listeners leave at a session tells of the events that they took there. -/
theorem contributed_eq_taken {ds : List Delivery} (h : ∀ d ∈ ds, d.Tells) (g : InstallerId)
    (id : SessionId) :
    (contributed ds g id).map Breadcrumb.content = (taken ds g id).flatMap Event.crumbs := by
  rw [contributed, taken, List.map_flatMap, List.flatMap_map]
  refine List.flatMap_congr fun d hd => ?_
  obtain ⟨hm, hp⟩ := List.mem_filter.mp hd
  simp only [decide_eq_true_eq] at hp
  exact h d hm g hp.2

/-- No event waits at a session that has stopped. -/
theorem pending_of_stopped (h : w.Sound left) {id : SessionId}
    (hs : w.program.hasStopped id = true) (g : InstallerId) : w.program.pending g id = [] := by
  simp only [Program.pending]
  cases hx : w.program.session? id with
  | none => rfl
  | some x =>
    have hstop : x.stopped = true := by
      rw [hasStopped, hx] at hs
      exact hs
    have hw := h.program.stopped_empty id x hx hstop
    have hp : x.pending g = [] := Session.pending_of_none fun v hv => by
      rw [hw] at hv
      cases hv
    rw [Option.map_some, hp]
    rfl

end World

/-- In every run without crashes: once a session has stopped, an installer's listener there has left the
breadcrumbs of exactly those events that the session accepted while it was attached, in this order and
each of them once; and the reporter has got the breadcrumbs of all deliveries in their order, with those
that the run leaves by itself in between. -/
theorem breadcrumbs_exactly_once (now : Timestamp) (retention : Retention) (cs : List Command)
    (calm : ∀ o ∈ Command.allOperations cs (initial now retention), o.Calm) :
    let ops := Command.allOperations cs (initial now retention)
    let ds := along Operation.deliveries ops (initial now retention)
    let ps := along Operation.postings ops (initial now retention)
    let s := (Command.runAll cs (initial now retention)).program
    (∀ g id, s.hasStopped id = true →
      (contributed ds g id).map Breadcrumb.content = (due ps g id).flatMap Event.crumbs) ∧
    ((∀ o ∈ ops, o.sparesCrumbs = true) →
      s.reporter.breadcrumbs = (along Operation.crumbs ops (initial now retention)).foldl
        (Reporter.pushWithin retention.breadcrumbLimit.toNat) []) := by
  intro ops ds ps s
  have hinit := sound_initial now retention
  have hrun : s = (perform ops (initial now retention)).program := by
    rw [← Command.runAll_eq_perform]
  obtain ⟨hs, _⟩ := hinit.perform_calm (calm_initial now retention) calm
  have hleaks : ∀ g id, leaks (along Operation.activations ops (initial now retention)) g id = 0 :=
    leaks_along_of_calm hinit (calm_initial now retention) calm
  refine ⟨fun g id hstop => ?_, fun spares => ?_⟩
  · have hz : 0 + leaks (along Operation.activations ops (initial now retention)) g id = 0 := by
      rw [hleaks]
    have heq := (exchange_perform hinit (wired_initial now retention) hz).eq
      ⟨calm_initial now retention, connected_initial now retention, calm⟩
    rw [hrun] at hstop
    have hpend : (initial now retention).program.pending g id = [] := rfl
    -- Nothing waits at a stopped session, so its listeners have taken all that was due.
    rw [pending_of_stopped hs hstop g, hpend, List.append_nil, List.nil_append] at heq
    rw [contributed_eq_taken (fun d hd => tells_of_mem_along hinit hd) g id]
    exact congrArg (·.flatMap Event.crumbs) heq
  · rw [hrun]
    exact (notes_perform hinit (wired_initial now retention) (fun _ _ => nofun) spares).breadcrumbs_eq

/-- A run in which two events are posted to a session whose installation has been tried twice and has
left it stranded, the first of them before that. -/
def toldRun : List Command :=
  [.operation (.start ⟨⟨0⟩⟩ (.standard none) .stuck false), .operation (.newInstaller .standard),
    .operation (.post ⟨⟨0⟩⟩ (.jobEnd ⟨6⟩ .epoch .succeeded)), .operation (.ensureInstalled ⟨0⟩ ⟨⟨0⟩⟩),
    .operation (.ensureInstalled ⟨0⟩ ⟨⟨0⟩⟩), .operation (.post ⟨⟨0⟩⟩ (.jobEnd ⟨7⟩ .epoch .succeeded)),
    .operation (.stop ⟨⟨0⟩⟩)]

theorem toldRun_calm : ∀ o ∈ Command.allOperations toldRun (initial .epoch .standard), o.Calm := by
  have ho : Command.allOperations toldRun (initial .epoch .standard) =
      [.start ⟨⟨0⟩⟩ (.standard none) .stuck false, .newInstaller .standard,
        .post ⟨⟨0⟩⟩ (.jobEnd ⟨6⟩ .epoch .succeeded), .ensureInstalled ⟨0⟩ ⟨⟨0⟩⟩,
        .ensureInstalled ⟨0⟩ ⟨⟨0⟩⟩, .post ⟨⟨0⟩⟩ (.jobEnd ⟨7⟩ .epoch .succeeded), .stop ⟨⟨0⟩⟩] := rfl
  rw [ho]
  intro o hm
  simp only [List.mem_cons, List.not_mem_nil, or_false] at hm
  rcases hm with rfl | rfl | rfl | rfl | rfl | rfl | rfl
  · exact Backend.stuck_calm
  all_goals trivial

/-- The session tells once of the event that was posted while the listener was there, and the reporter
has got nothing else. -/
theorem breadcrumbs_once_when_stranded :
    (∀ o ∈ Command.allOperations toldRun (initial .epoch .standard), o.Calm ∧ o.sparesCrumbs = true) ∧
      (Command.runAll toldRun (initial .epoch .standard)).program.hasStopped ⟨⟨0⟩⟩ = true ∧
      (contributed (along Operation.deliveries (Command.allOperations toldRun (initial .epoch .standard))
        (initial .epoch .standard)) ⟨0⟩ ⟨⟨0⟩⟩).map Breadcrumb.content =
          [(.info, "Job 7 Ended", [("result", "JobSucceeded")])] ∧
      (Command.runAll toldRun (initial .epoch .standard)).program.reporter.breadcrumbs =
        [⟨.epoch, .info, "Job 7 Ended", .ofList [("result", "JobSucceeded")]⟩] := by
  have hstop : (Command.runAll toldRun (initial .epoch .standard)).program.hasStopped ⟨⟨0⟩⟩ = true := by
    decide
  have hspares : ∀ o ∈ Command.allOperations toldRun (initial .epoch .standard),
      o.sparesCrumbs = true := by decide
  have hdue : due (along Operation.postings (Command.allOperations toldRun (initial .epoch .standard))
      (initial .epoch .standard)) ⟨0⟩ ⟨⟨0⟩⟩ = [.jobEnd ⟨7⟩ .epoch .succeeded] := by decide
  obtain ⟨hold, hrep⟩ := breadcrumbs_exactly_once .epoch .standard toldRun toldRun_calm
  refine ⟨fun o ho => ⟨toldRun_calm o ho, hspares o ho⟩, hstop, ?_, ?_⟩
  · rw [hold ⟨0⟩ ⟨⟨0⟩⟩ hstop, hdue]
    rfl
  · rw [hrep hspares]
    rfl

end SessionTrail

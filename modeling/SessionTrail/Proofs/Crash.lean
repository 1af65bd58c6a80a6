import Mathlib.Data.List.Flatten
import SessionTrail.Proofs.ExactlyOnce

/-!
# Activations that crash

A crash behind the attachment leaves the listener at its session, while the installer forgets the
session: the next activation attaches another one. Only where the call that attaches crashes itself is
all as before. Here it is told exactly which listeners are left, and what follows from none being left.
-/
namespace SessionTrail

open Program World

/-- Whether an activation leaves its session with the listeners that it had, or stranded, so that no
listener is attached to it again. -/
def Activation.Safe (a : Activation) : Prop :=
  (a.run.2.session? a.session).map (·.workers) = (a.before.session? a.session).map (·.workers) ∨
    a.run.2.standing? a.installer a.session = some .stranded

instance (a : Activation) : Decidable a.Safe := inferInstanceAs (Decidable (_ ∨ _))

/-- A crash leaves no standing, and beside the listeners that were there at most one of its installer's. -/
theorem Activation.of_crash {left : InstallerId → SessionId → Nat} {a : Activation}
    (h : a.before.Sound left) (hc : a.run.1 = .crashed) :
    a.run.2.standing? a.installer a.session = none ∧
      ∃ x y v, a.before.session? a.session = some x ∧ a.run.2.session? a.session = some y ∧
        v.isOf a.installer = true ∧ y.workers = x.workers ++ if a.leaves = true then [v] else [] := by
  obtain ⟨r, hne, hrun, _⟩ | ⟨i, r, u, hi, _, hin, heff, hrun⟩ :=
    ensureInstalled_cases a.installer a.session a.before (h.listener_lt a.session)
  · rw [Activation.run, hrun] at hc
    exact absurd hc hne
  · have hr : r = .crashed := by
      rw [Activation.run, hrun] at hc
      cases r with
      | done p => cases hc
      | failed f => cases hc
      | crashed => rfl
    have hsome : ((forgetGone a.installer a.before).2.installer? a.installer).isSome = true := by
      rw [hi]
      rfl
    have hstand := standing?_after hin hsome a.installer a.session
    rw [if_pos ⟨rfl, rfl⟩, hr] at hstand
    have hend : a.run.2 = setStanding a.installer a.session none u := by
      rw [Activation.run, hrun, hr]
      rfl
    have hthere : (u.session? a.session).isSome = true := by
      rw [hin.known]
      cases hin with
      | lostAtFirst _ x here => rw [here]; rfl
      | lostLater _ x here => rw [here]; rfl
      | refused | takenBack | stuck | completed => cases hr
    obtain ⟨y, hy⟩ := Option.isSome_iff_exists.mp hthere
    obtain ⟨x, hx, _, heq⟩ := heff a.session y hy
    have hleaves : a.leaves = stays x r := by
      rw [Activation.leaves, hc, hx, hr]
      simp [stays]
    rw [hend]
    refine ⟨hstand, x, y, x.nextWorker (nextListener (forgetGone a.installer a.before).2 a.installer i),
      hx, hy, ?_, ?_⟩
    · simp [Worker.isOf, Session.nextWorker, nextListener]
    · rw [hleaves]
      exact (heq rfl).workers

/-- A crash is safe if and only if it comes of the call that attaches the listener. -/
theorem Activation.safe_iff_of_crash {left : InstallerId → SessionId → Nat} {a : Activation}
    (h : a.before.Sound left) (hc : a.run.1 = .crashed) : a.Safe ↔ a.leaves = false := by
  obtain ⟨hstand, x, y, v, hx, hy, _, hw⟩ := a.of_crash h hc
  rw [Activation.Safe, hstand, hx, hy]
  simp only [Option.map_some, Option.some.injEq, reduceCtorEq, or_false, hw]
  cases a.leaves <;> simp

namespace World

theorem taken_sublist_due (now : Timestamp) (retention : Retention) {ops : List Operation}
    {g : InstallerId} {id : SessionId}
    (hz : leaks (along Operation.activations ops (initial now retention)) g id = 0) :
    (taken (along Operation.deliveries ops (initial now retention)) g id).Sublist
      (due (along Operation.postings ops (initial now retention)) g id) := by
  have hz' : 0 + leaks (along Operation.activations ops (initial now retention)) g id = 0 := by
    rw [hz]
  have hex := (exchange_perform (sound_initial now retention) (wired_initial now retention) hz').sublist
  have hpend : (initial now retention).program.pending g id = [] := rfl
  rw [hpend, List.nil_append] at hex
  exact (List.sublist_append_left _ _).trans hex

end World

/-- What crashes do, in every run. A crash is safe exactly if it comes of the call that attaches the
listener; any other leaves one. At a running session that can be reached an installer has the listeners
that its crashes have left there, and one more if it stands with it. Where no crash has left one, no
event is told of twice. -/
theorem crashes_leave_listeners (now : Timestamp) (retention : Retention) (cs : List Command) :
    let ops := Command.allOperations cs (initial now retention)
    let activations := along Operation.activations ops (initial now retention)
    let s := (Command.runAll cs (initial now retention)).program
    (∀ a ∈ activations, a.run.1 = .crashed → (a.Safe ↔ a.leaves = false)) ∧
    (∀ g id x, s.session? id = some x → x.stopped = false →
      x.attachedBy g ≤ leaks activations g id + 1 ∧
      (s.isReachable id = true → x.attachedBy g =
        leaks activations g id + if (s.standing? g id).isSome then 1 else 0)) ∧
    ∀ g id, leaks activations g id = 0 →
      ((contributed (along Operation.deliveries ops (initial now retention)) g id).map
        Breadcrumb.content).Sublist
          ((due (along Operation.postings ops (initial now retention)) g id).flatMap Event.crumbs) := by
  intro ops activations s
  have hinit := sound_initial now retention
  have hrun : s = (perform ops (initial now retention)).program := by
    rw [← Command.runAll_eq_perform]
  refine ⟨fun a ha hc => ?_, fun g id x hx hs => ?_, fun g id hz => ?_⟩
  · obtain ⟨first, o, rest, _, ho⟩ := mem_along ha
    exact a.safe_iff_of_crash (activation_before (hinit.perform first).program ho).1 hc
  · rw [hrun] at hx ⊢
    have hb := (hinit.perform ops).program.balance g id x hx hs
    simp only [Nat.zero_add] at hb
    refine ⟨hb.at_most, fun hr => ?_⟩
    cases hst : ((perform ops (initial now retention)).program.standing? g id) with
    | none => exact hb.free hst hr
    | some st => exact hb.stands (by rw [hst]; rfl)
  · rw [contributed_eq_taken (fun d hd => tells_of_mem_along hinit hd) g id]
    exact (taken_sublist_due now retention hz).flatMap _

/-- A backend that crashes when the application's name is read. -/
def Backend.nameless : Backend :=
  ⟨none, fun _ c => if c = .read (.fact .appName) then some .crash else none⟩

/-- A run in which an installation crashes and is tried again, before a job ends. -/
def crashedRun : List Command :=
  [.operation (.start ⟨⟨0⟩⟩ (.standard none) .nameless false), .operation (.newInstaller .standard),
    .operation (.ensureInstalled ⟨0⟩ ⟨⟨0⟩⟩), .operation (.setBackend ⟨⟨0⟩⟩ .sound),
    .operation (.ensureInstalled ⟨0⟩ ⟨⟨0⟩⟩), .operation (.post ⟨⟨0⟩⟩ (.jobEnd ⟨7⟩ .epoch .succeeded)),
    .operation (.turn ⟨⟨0⟩⟩ 0), .operation (.turn ⟨⟨0⟩⟩ 1)]

/-- The crash is not safe: two listeners of one installer are at the running session in the end, and
the reporter is told twice of the one event. -/
theorem crash_leaves_second_listener :
    let ops := Command.allOperations crashedRun (initial .epoch .standard)
    let s := (Command.runAll crashedRun (initial .epoch .standard)).program
    (∃ a ∈ along Operation.activations ops (initial .epoch .standard),
      a.run.1 = .crashed ∧ ¬ a.Safe) ∧
    (s.session? ⟨⟨0⟩⟩).map (fun x => (x.stopped, x.attachedBy ⟨0⟩)) = some (false, 2) ∧
    due (along Operation.postings ops (initial .epoch .standard)) ⟨0⟩ ⟨⟨0⟩⟩ =
      [.jobEnd ⟨7⟩ .epoch .succeeded] ∧
    s.reporter.breadcrumbs.map Breadcrumb.content =
      [(.info, "Job 7 Ended", [("result", "JobSucceeded")]),
        (.info, "Job 7 Ended", [("result", "JobSucceeded")])] := by
  exact ⟨by decide, by decide, by decide, by decide⟩

end SessionTrail

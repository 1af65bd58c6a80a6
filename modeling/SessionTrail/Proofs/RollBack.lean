import SessionTrail.Proofs.Between
import SessionTrail.Proofs.Registered
import SessionTrail.Proofs.Setups
import SessionTrail.Proofs.Trouble
import SessionTrail.Session.Outages

/-!
# Failed activations roll back

An activation that is refused a call leaves all as its forgetting has left it, but for the traces of the
calls that it made: the session's log, one property perhaps, and the numbers that were given to its
listener. Only where the listener cannot be taken back does the installer write the session down as
stranded. Otherwise the next activation starts afresh.
-/
namespace SessionTrail

open Program World

namespace Activation

variable {a : Activation} {left : InstallerId → SessionId → Nat} {x : Session}

/-- An activation that reports an error of its session has failed to install there. -/
theorem of_session_error {e : CallError} (h : a.before.Sound left)
    (hx : a.before.session? a.session = some x) (hr : a.run.1 = .failed (.session e)) :
    let t := (forgetGone a.installer a.before).2
    ∃ i y stranded, t.installer? a.installer = some i ∧
      x.firstTrouble (x.installCalls i.config.keyPrefix) = some (.refusal e) ∧
      (stranded = true ↔ x.RefusesToDetach i.config.keyPrefix) ∧
      x.Undone i.config.keyPrefix (nextListener t a.installer i) stranded y ∧
      a.run.2 = { if stranded then setStanding a.installer a.session (some .stranded) t else t with
        sessions := t.sessions.set a.session y, listeners := t.listeners + 1 } := by
  intro t
  obtain ⟨hsess, _, hlis, _⟩ := forgetGone_fields a.installer a.before
  rw [run] at hr
  obtain ⟨_, hrun⟩ | ⟨st, _, hrun⟩ | ⟨i, r, u, hi, hs, _, _, hrun, hin⟩ :=
    ensureInstalled_ends a.installer a.session a.before (h.listener_lt a.session) <;> rw [hrun] at hr
  · cases hr
  · cases st <;> cases hr
  · rcases r with _ | f | _ <;> cases hr
    have hx' : (setStanding a.installer a.session (some .installing) t).session? a.session = some x :=
      (congrArg (Table.get? · a.session) hsess).trans hx
    have hfresh : ∀ v ∈ x.workers,
        v.listener.id.val < (setStanding a.installer a.session (some .installing) t).listeners :=
      fun v hv => Nat.lt_of_lt_of_eq (h.listener_lt a.session x hx v hv) hlis.symm
    obtain ⟨hf, hstr, y, hy, hu⟩ := install_failed hx' hfresh hin
    refine ⟨i, y, f.stranded, hi, hf, hstr, hy, ?_⟩
    rw [run, hrun, hu]
    refine (setStanding_of_reserved t a.installer a.session _ _ _).trans ?_
    rw [standingAfter]
    split
    · rfl
    · rw [setStanding_of_free hi hs]
      rfl

/-- An activation that finds its session stranded does nothing. -/
theorem of_stranded_error {id : SessionId} (h : a.before.Sound left)
    (hr : a.run.1 = .failed (.stranded id)) :
    id = a.session ∧ a.run.2 = (forgetGone a.installer a.before).2 := by
  rw [run] at hr
  obtain ⟨_, hrun⟩ | ⟨st, _, hrun⟩ | ⟨i, r, u, _, _, _, _, hrun, _⟩ :=
    ensureInstalled_ends a.installer a.session a.before (h.listener_lt a.session) <;> rw [hrun] at hr
  · cases hr
  · rw [run, hrun]
    cases st <;> cases hr
    exact ⟨rfl, rfl⟩
  · cases r <;> cases hr

/-- An activation of a session that its installer does not stand with installs there, if all its calls
are served. -/
theorem installs_of_free {i : Installer} (h : a.before.Sound left)
    (hi : a.before.installer? a.installer = some i)
    (hn : a.before.standing? a.installer a.session = none)
    (hx : a.before.session? a.session = some x)
    (hc : x.firstTrouble (x.installCalls i.config.keyPrefix) = none) : a.run.1 = .done .installed := by
  have hi' := installer?_forgetGone_self hi
  have hs : (a.before.keepRows i).standings.get? a.session = none := by
    have hst : (forgetGone a.installer a.before).2.standing? a.installer a.session = none := by
      rw [standing?_forgetGone h, hn, ite_self]
    rw [standing?, hi', Option.bind_some] at hst
    exact hst
  have hx' : (setStanding a.installer a.session (some .installing)
      (forgetGone a.installer a.before).2).session? a.session = some x :=
    (congrArg (Table.get? · a.session) (forgetGone_fields a.installer a.before).1).trans hx
  have hd : ∃ p, ((install a.installer (a.before.keepRows i).config a.session).run (setStanding
      a.installer a.session (some .installing) (forgetGone a.installer a.before).2)).1 = .done p :=
    install_done hx' hc
  obtain ⟨p, hp⟩ := hd
  rw [run, run_ensureInstalled_of_free hi' hs, hp]
  rfl

/-- What an activation that installs leaves: its listener and its enricher, of which the installer has
written down the number. -/
theorem of_installed (h : a.before.Sound left)
    (hreach : ∀ x, a.before.session? a.session = some x → a.before.isReachable a.session = true)
    (hr : a.run.1 = .done .installed) :
    ∃ p e y, a.run.2.standing? a.installer e.session = some (.installed p) ∧ e.session = a.session ∧
      (p, Processor.enricher e) ∈ a.run.2.reporter.processors ∧
      a.run.2.session? a.session = some y ∧
      y.attachedBy a.installer = left a.installer a.session + 1 := by
  have hs := h.ensureInstalled a.installer a.session hreach
  have hleaves : a.leaves = false := by simp [leaves, hr]
  rw [run] at hr ⊢
  obtain ⟨_, hrun⟩ | ⟨st, _, hrun⟩ | ⟨i, r, u, hi, _, hin, heff, hrun, _⟩ :=
    ensureInstalled_ends a.installer a.session a.before (h.listener_lt a.session) <;>
    rw [hrun] at hr hs ⊢
  · cases hr
  · cases st <;> cases hr
  · rcases r with p | f | _ <;> cases hr
    have hst := standing?_after hin (by rw [hi]; rfl) a.installer a.session
    rw [if_pos ⟨rfl, rfl⟩] at hst
    obtain ⟨hp, hrep⟩ | ⟨hno, _⟩ := hin.reporter_cases
    · have hthere : ((reserved (forgetGone a.installer a.before).2 a.installer a.session).session?
          a.session).isSome = true := by
        cases hin with
        | completed _ x here => rw [here, Option.isSome_some]
      obtain ⟨y, hy⟩ := Option.isSome_iff_exists.mp ((hin.known a.session).trans hthere)
      obtain ⟨x, hx, _, heq⟩ := heff a.session y hy
      have hstop : y.stopped = false := (heq rfl).stopped.trans ((heq rfl).running rfl)
      have hb := (hs.balance a.installer a.session y hy hstop).stands (by rw [hst]; rfl)
      simp only [Program.Sound.leaks_singleton, hleaves, Bool.false_eq_true, and_false, if_false,
        Nat.add_zero] at hb
      refine ⟨p, nextEnricher i a.session, y, hst, rfl, ?_, hy, hb⟩
      have hmem : (p, Processor.enricher (nextEnricher i a.session)) ∈ u.reporter.processors := by
        rw [hrep, Outcome.done.inj hp]
        exact List.mem_append_right _ (List.mem_singleton_self _)
      exact hmem
    · exact absurd rfl (hno p)

end Activation

/-- An activation that reports an error, and those behind it that do not ask for the session, leave no
listener of the installer there. -/
theorem leaks_between {a : Activation} {e : CallError} (hr : a.run.1 = .failed (.session e))
    {g : InstallerId} {id : SessionId} (earlier : List Activation) {between : List Activation}
    (hbetween : ∀ c ∈ between, c.asks g id = false) :
    leaks (earlier ++ a :: between) g id = leaks earlier g id := by
  rw [leaks_append, Nat.add_eq_left, leaks, List.countP_eq_zero]
  intro c hc hleaves
  obtain ⟨hg, hid, hl⟩ := of_decide_eq_true hleaves
  rcases List.mem_cons.mp hc with rfl | hc
  · simp [Activation.leaves, hr] at hl
  · have hno := hbetween c hc
    rw [Activation.asks_iff.mpr ⟨hg, hid⟩] at hno
    cases hno

/-- Failed activations roll back, in every run. One that reports an error of its session reports the
first call that was refused. It leaves the program as its forgetting has left it but for its session,
which keeps its listeners and gets at most the property of the application's name; only if the session
refuses to detach the new listener, that stays there too and the installer holds the session for
stranded. One that finds its session stranded does nothing. Behind a failure that leaves no standing the
next activation whose calls are all served installs: then its installer has one listener at the session,
beside those that earlier crashes have left there, and one enricher for it. -/
theorem failed_activations_roll_back (now : Timestamp) (retention : Retention) (cs : List Command) :
    let ops := Command.allOperations cs (initial now retention)
    let activations := along Operation.activations ops (initial now retention)
    (∀ a ∈ activations, ∀ e x, a.run.1 = .failed (.session e) →
      a.before.session? a.session = some x →
        let t := (forgetGone a.installer a.before).2
        ∃ i y, t.installer? a.installer = some i ∧
          x.firstTrouble (x.installCalls i.config.keyPrefix) = some (.refusal e) ∧
          (y.properties = x.properties ∨ y.properties =
            x.properties.insert (propertyKey i.config.keyPrefix appNameProperty) (x.fact .appName)) ∧
          (¬ x.RefusesToDetach i.config.keyPrefix → y.workers = x.workers ∧
            a.run.2 = { t with
              sessions := t.sessions.set a.session y
              listeners := t.listeners + 1 }) ∧
          (x.RefusesToDetach i.config.keyPrefix →
            (∃ v, v.listener.owner = some a.installer ∧ y.workers = x.workers ++ [v]) ∧
            a.run.2 = { setStanding a.installer a.session (some .stranded) t with
              sessions := t.sessions.set a.session y
              listeners := t.listeners + 1 })) ∧
    (∀ a ∈ activations, ∀ id, a.run.1 = .failed (.stranded id) →
      id = a.session ∧ a.run.2 = (forgetGone a.installer a.before).2) ∧
    (∀ earlier a between b later, activations = earlier ++ a :: (between ++ b :: later) →
      (∃ e, a.run.1 = .failed (.session e)) → a.run.2.standing? a.installer a.session = none →
      (∀ c ∈ between, c.asks a.installer a.session = false) →
      b.asks a.installer a.session = true → ∀ i x, b.before.installer? b.installer = some i →
      b.before.session? b.session = some x →
      x.firstTrouble (x.installCalls i.config.keyPrefix) = none →
        b.run.1 = .done .installed ∧ (b.run.2.enrichersOf [b.installer] b.session).length = 1 ∧
        ∃ y, b.run.2.session? b.session = some y ∧
          y.attachedBy b.installer = leaks earlier b.installer b.session + 1 ∧
          ((∀ o ∈ ops, o.Calm) → y.attachedBy b.installer = 1)) := by
  intro ops activations
  have hinit := sound_initial now retention
  refine ⟨fun a ha e x hr hx => ?_, fun a ha id hr => ?_, ?_⟩
  · obtain ⟨first, o, rest, _, ho⟩ := mem_along ha
    obtain ⟨i, y, stranded, hi, hf, hstr, hy, hrun⟩ :=
      a.of_session_error (activation_before (hinit.perform first).program ho).1 hx hr
    refine ⟨i, y, hi, hf, hy.properties, fun hd => ?_, fun hd => ?_⟩
    · have hs : stranded = false := Bool.eq_false_iff.mpr fun hs => hd (hstr.mp hs)
      have hw := hy.workers
      rw [hs] at hw hrun
      exact ⟨hw.trans (List.append_nil _), hrun⟩
    · have hw := hy.workers
      rw [hstr.mpr hd] at hw hrun
      exact ⟨⟨_, rfl, hw⟩, hrun⟩
  · obtain ⟨first, o, rest, _, ho⟩ := mem_along ha
    exact a.of_stranded_error (activation_before (hinit.perform first).program ho).1 hr
  · intro earlier a between b later hsplit ⟨e, hr⟩ hn hbetween hasks i x hi hx hserved
    obtain ⟨hg, hid⟩ := Activation.asks_iff.mp hasks
    rw [← hg, ← hid] at hn hbetween
    obtain ⟨first, o, hfirst, hb, hfree⟩ := standing?_between hinit hsplit hn hbetween
    obtain ⟨hbs, _, hreach⟩ := activation_before (hinit.perform first).program hb
    have hdone := b.installs_of_free hbs hi hfree hx hserved
    obtain ⟨p, q, y, hst, hq, hm, hy, hcount⟩ := b.of_installed hbs hreach hdone
    have hleft : leaks (along Operation.activations first (initial now retention)) b.installer
        b.session = leaks earlier b.installer b.session := by
      rw [hfirst, leaks_between hr earlier hbetween]
    refine ⟨hdone, ?_, y, hy, ?_, fun calm => ?_⟩
    · have he := (enriched_next (hinit.perform first) (enriched_perform hinit
        (enriched_initial now retention) first) o).numbered
      rw [← (activation_next hb).2] at he
      rw [← hq]
      exact length_enrichersOf_of_installed he hm hst
    · rw [hcount, hleft, Nat.zero_add]
    · have hz := leaks_along_of_calm hinit (calm_initial now retention) calm b.installer b.session
      rw [show along Operation.activations ops (initial now retention) = _ from hsplit, leaks_append] at hz
      rw [hcount, hleft]
      omega

/-- A backend that refuses the first write. -/
def Backend.busy : Backend := ({ failingWrites := 1 } : Outages).backend

/-- A run in which an installation is refused its first write, and is tried again. -/
def retakenRun : List Command :=
  [.operation (.start ⟨⟨0⟩⟩ (.standard none) .busy false), .operation (.newInstaller .standard),
    .operation (.ensureInstalled ⟨0⟩ ⟨⟨0⟩⟩), .operation (.ensureInstalled ⟨0⟩ ⟨⟨0⟩⟩)]

/-- The first attempt leaves no listener and no standing, and the second one installs. -/
theorem rollback_of_refused_write :
    let a : Activation :=
      ⟨⟨0⟩, ⟨⟨0⟩⟩, (Command.runAll (retakenRun.take 2) (initial .epoch .standard)).program⟩
    let b : Activation :=
      ⟨⟨0⟩, ⟨⟨0⟩⟩, (Command.runAll (retakenRun.take 3) (initial .epoch .standard)).program⟩
    along Operation.activations (Command.allOperations retakenRun (initial .epoch .standard))
      (initial .epoch .standard) = [a, b] ∧
    a.run.1 = .failed (.session (.unavailable "property store busy")) ∧
    a.run.2.reporter = (forgetGone a.installer a.before).2.reporter ∧
    a.run.2.standing? ⟨0⟩ ⟨⟨0⟩⟩ = none ∧
    b.run.1 = .done .installed ∧ (b.run.2.enrichersOf [⟨0⟩] ⟨⟨0⟩⟩).length = 1 ∧
    ∃ y, b.run.2.session? ⟨⟨0⟩⟩ = some y ∧ y.attachedBy ⟨0⟩ = 1 := by
  intro a b
  have hsplit : along Operation.activations
      (Command.allOperations retakenRun (initial .epoch .standard)) (initial .epoch .standard) =
        [] ++ a :: ([] ++ b :: []) := rfl
  have hr : a.run.1 = .failed (.session (.unavailable "property store busy")) := by decide
  have hn : a.run.2.standing? ⟨0⟩ ⟨⟨0⟩⟩ = none := by decide
  obtain ⟨hfail, _, hagain⟩ := failed_activations_roll_back .epoch .standard retakenRun
  -- What the installer is configured with and what becomes of its calls is computed at both attempts.
  have hfirst : (a.before.session? a.session).map (fun x =>
      x.backend.trouble (x.history ++ x.made (x.installCalls "")) .detach) = some none := by decide
  have hsecond : (b.before.session? b.session).map (fun x => x.firstTrouble (x.installCalls "")) =
      some none := by decide
  have hprefix : ((forgetGone a.installer a.before).2.installer? a.installer).map (·.config.keyPrefix) =
      some "" := by decide
  have hprefix' : (b.before.installer? b.installer).map (·.config.keyPrefix) = some "" := by decide
  obtain ⟨x, hx, hd⟩ := Option.map_eq_some_iff.mp hfirst
  obtain ⟨x', hx', hserved⟩ := Option.map_eq_some_iff.mp hsecond
  obtain ⟨i', hi', hp'⟩ := Option.map_eq_some_iff.mp hprefix'
  obtain ⟨i, y, hi, _, _, hclean, _⟩ := hfail a (by rw [hsplit]; exact List.mem_cons_self) _ x hr hx
  have hp : i.config.keyPrefix = "" := by
    rw [hi] at hprefix
    exact Option.some.inj hprefix
  have hrep : a.run.2.reporter = (forgetGone a.installer a.before).2.reporter := by
    rw [(hclean fun ⟨_, e, he⟩ => ?_).2]
    rw [hp, hd] at he
    cases he
  obtain ⟨hdone, hone, y', hy', hcount, _⟩ := hagain [] a [] b [] hsplit ⟨_, hr⟩ hn
    (List.forall_mem_nil _) (by decide) i' x' hi' hx' (by rw [hp']; exact hserved)
  refine ⟨hsplit, hr, hrep, hn, hdone, hone, y', hy', ?_⟩
  rw [leaks, List.countP_nil] at hcount
  exact hcount

end SessionTrail

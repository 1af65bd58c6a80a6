import SessionTrail.Proofs.Filling
import SessionTrail.Proofs.Registered
import SessionTrail.Session.Outages

/-!
# Captured reports

Where only enrichers are registered, a report that is submitted is kept, filled from the active session
if one of them was made for that session and its integration is enabled, and else as it is. However many
enrichers that are, the report is filled as by a single one; the enrichers of other sessions read nothing.
-/
namespace SessionTrail

open Program World

namespace Program

/-- Every enricher has been made for the reporter that it is registered on, which is still there. -/
def Unorphaned (s : Program) : Prop :=
  ∀ p e, (p, Processor.enricher e) ∈ s.reporter.processors → e.orphaned = false

/-- Some registered enricher was made for a session, with an integration that is enabled. -/
def Covers (s : Program) (id : SessionId) : Prop :=
  ∃ p e, (p, Processor.enricher e) ∈ s.reporter.processors ∧ e.session = id ∧
    s.isEnabled e.integration = true

/-- The reads of the active session have fixed answers. -/
def ActiveReadsFixed (s : Program) : Prop :=
  ∀ id x, s.active = some id → s.session? id = some x → x.backend.ReadsFixed

/-! ## No enricher is orphaned -/

namespace Unorphaned

variable {s t : Program} {left : InstallerId → SessionId → Nat}

theorem idle (h : s.Unorphaned) (i : Idle s t) : t.Unorphaned := fun p e hm => h p e (i.enrichers p e hm)

theorem of_reporter_eq (h : s.Unorphaned) (hr : t.reporter = s.reporter) : t.Unorphaned :=
  fun p e hm => h p e (hr ▸ hm)

theorem forgetGone (h : s.Unorphaned) (g : InstallerId) : (Program.forgetGone g s).2.Unorphaned := by
  cases hi : s.installer? g with
  | none =>
    rw [forgetGone_of_none hi]
    exact h
  | some i =>
    rw [forgetGone_eq hi]
    exact fun p e hm => h p e (List.mem_filter.mp hm).1

theorem ensureInstalled (h : s.Unorphaned) (hs : Sound left s) (g : InstallerId) (id : SessionId) :
    ((Program.ensureInstalled g id).run s).2.Unorphaned := by
  have hf := h.forgetGone g
  obtain ⟨r, _, hrun, _⟩ | ⟨i, r, u, hi, _, hin, _, hrun⟩ :=
    ensureInstalled_cases g id s (hs.listener_lt id)
  · rw [hrun]
    exact hf
  · rw [hrun]
    intro p e hm
    change (p, _) ∈ u.reporter.processors at hm
    obtain ⟨_, hrep⟩ | ⟨_, hrep⟩ := hin.reporter_cases <;> rw [hrep] at hm
    · rcases List.mem_append.mp hm with hm | hm
      · exact hf p e hm
      · simp only [List.mem_singleton, Prod.mk.injEq, Processor.enricher.injEq] at hm
        rw [hm.2, nextEnricher]
    · exact hf p e hm

end Unorphaned

end Program

namespace World

variable {w : World} {left : InstallerId → SessionId → Nat}

theorem unorphaned_next (hs : w.Sound left) (h : w.program.Unorphaned) (o : Operation) :
    (o.next w).program.Unorphaned := by
  cases o with
  | ensureInstalled g id =>
    exact ensureInstalled_preserves g id h (h.ensureInstalled hs.program g id)
  | setUp i =>
    exact setUp_preserves w i h (fun _ => h.of_reporter_eq rfl)
      (fun config id he => he.ensureInstalled (hs.program.newInstaller config) _ id)
      fun _ _ he => he.of_reporter_eq rfl
  | forgetGone g =>
    exact forgetGone_preserves g h (h.forgetGone g)
  | newInstaller config => exact h.of_reporter_eq rfl
  | newIntegration config => exact h.of_reporter_eq rfl
  | _ => exact h.idle (idle_next rfl)

theorem unorphaned_perform (hs : w.Sound left) (h : w.program.Unorphaned) (ops : List Operation) :
    (perform ops w).program.Unorphaned := by
  induction ops generalizing w left with
  | nil => exact h
  | cons o rest ih => exact ih (hs.next o) (unorphaned_next hs h o)

end World

/-! ## What is read -/

namespace Program

/-- What a session of a program answers to a read; one that is not there counts as stopped. -/
def answer (s : Program) (id : SessionId) (a : Attribute) : Outcome CallError (Option String) :=
  ((s.session? id).map fun x => x.answer a).getD (.failed .stopped)

theorem onSession_read (s : Program) (id : SessionId) (a : Attribute) :
    ((onSession id (Session.read a)).run s).1 = s.answer id a := by
  cases hx : s.session? id with
  | none => rw [run_onSession_of_none hx, answer, hx, Option.map_none, Option.getD_none]
  | some x => rw [run_onSession hx, Session.run_read, answer, hx, Option.map_some, Option.getD_some]

/-- Where the reads of a session are fixed, those that have been made do not change its answers. -/
theorem answer_of_core_eq {s t : Program} {id : SessionId} (h : t.core = s.core)
    (hx : ∀ x, s.session? id = some x → x.backend.ReadsFixed) (a : Attribute) :
    t.answer id a = s.answer id a := by
  have hm : (t.session? id).map Session.core = (s.session? id).map Session.core := by
    rw [← session?_core, ← session?_core, h]
  rw [answer, answer]
  cases hs : s.session? id with
  | none =>
    rw [hs, Option.map_none, Option.map_eq_none_iff] at hm
    rw [hm]
  | some x =>
    rw [hs, Option.map_some] at hm
    obtain ⟨y, hy, hc⟩ := Option.map_eq_some_iff.mp hm
    rw [hy]
    exact Session.answer_of_core_eq hc (hx x hs) a

/-- Where the reads of a session are fixed, each answers alike whatever has been read before. -/
theorem onSession_read_fixed {s : Program} {id : SessionId}
    (hx : ∀ x, s.session? id = some x → x.backend.ReadsFixed) (a : Attribute) (t : Program)
    (ht : t.core = s.core) :
    ((onSession id (Session.read a)).run t).1 = s.answer id a ∧
      ((onSession id (Session.read a)).run t).2.core = s.core := by
  refine ⟨?_, (onSession_keeps_core id (Session.read_keeps_core a) t).trans ht⟩
  rw [onSession_read]
  exact answer_of_core_eq ht hx a

/-- A report that is filled from a session is filled from the answers that the session gives. -/
theorem fillReport_eq (s : Program) (id : SessionId)
    (hx : ∀ x, s.session? id = some x → x.backend.ReadsFixed) {t : Program} (ht : t.core = s.core)
    (report : Report) :
    (fillReport id report t).2.1 = (Report.fillFrom (s.answer id) enrichmentPlan report).2 :=
  (Report.fillAlong_eq_fillFrom (s.answer id) enrichmentPlan report (onSession_read_fixed hx) t ht).2

/-- Whether a processor is an enricher that has a session to read from. -/
def aims (s : Program) : Processor → Bool
  | .enricher e => s.isTarget e
  | .rule _ => false

/-- A report as a single enricher fills it from the active session. -/
def filled (s : Program) (report : Report) : Report :=
  match s.active with
  | some id => (Report.fillFrom (s.answer id) enrichmentPlan report).2
  | none => report

theorem isTarget_of_core_eq {s t : Program} (h : t.core = s.core) (e : Enricher) :
    t.isTarget e = s.isTarget e :=
  (congrArg (fun u : Program => u.isTarget e) h :)

theorem aims_eq {s t : Program} (ha : t.active = s.active) (hr : t.reporter = s.reporter) :
    t.aims = s.aims := by
  funext q
  cases q with
  | rule r => rfl
  | enricher e => simp only [aims, isTarget, isEnabled, ha, hr]

theorem filled_eq {s t : Program} (ha : t.active = s.active)
    (hsame : ∀ id, s.active = some id → t.session? id = s.session? id) : t.filled = s.filled := by
  funext r
  unfold filled
  rw [ha]
  cases hid : s.active with
  | none => rfl
  | some id =>
    have hanswer : t.answer id = s.answer id := by
      funext a
      rw [answer, answer, hsame id hid]
    simp only [hanswer]

theorem filled_filled (s : Program) (report : Report) : s.filled (s.filled report) = s.filled report := by
  unfold filled
  cases s.active with
  | none => rfl
  | some id => simp only [Report.fillFrom_fillFrom]

theorem eventId_filled (s : Program) (report : Report) : (s.filled report).eventId = report.eventId := by
  unfold filled
  cases s.active with
  | none => rfl
  | some id => exact Report.eventId_fillFrom ..

theorem runEnricher_eq {s t : Program} (hx : s.ActiveReadsFixed) (ht : t.core = s.core) (e : Enricher)
    (report : Report) :
    (runEnricher e report t).1 = if s.isTarget e then s.filled report else report := by
  rw [runEnricher, isTarget_of_core_eq ht]
  split
  · rename_i he
    have ha : s.active = some e.session := by
      simp only [isTarget, Bool.and_eq_true, decide_eq_true_eq] at he
      exact he.2
    rw [filled, ha]
    exact fillReport_eq s e.session (fun x h => hx e.session x ha h) ht report
  · rfl

/-- Enrichers hand on every report, filled as by a single one of them if any of them has a session to
read from. -/
theorem process_enrichers {s : Program} (hx : s.ActiveReadsFixed) (hint : Hint) (ps : List Processor)
    (hps : ∀ r, Processor.rule r ∉ ps) {t : Program} (ht : t.core = s.core) (report : Report) :
    (Reporter.process (runProcessor hint) ps report t).1 =
      some (if ps.any s.aims then s.filled report else report) := by
  induction ps generalizing report t with
  | nil => rfl
  | cons p rest ih =>
    cases p with
    | rule r => exact absurd List.mem_cons_self (hps r)
    | enricher e =>
      have hnext := ih (fun r hr => hps r (List.mem_cons_of_mem _ hr))
        ((runEnricher_core e report t).trans ht) (runEnricher e report t).1
      refine hnext.trans ?_
      rw [runEnricher_eq hx ht, List.any_cons, aims]
      -- Behind an enricher that has filled the report, another one finds nothing to fill.
      cases s.isTarget e with
      | false => rfl
      | true =>
        simp only [if_true, Bool.true_or, filled_filled, ite_self]

theorem any_aims_iff {s : Program} (h : s.Unorphaned) :
    (s.reporter.processors.map (·.2)).any s.aims = true ↔ ∃ id, s.active = some id ∧ s.Covers id := by
  simp only [List.any_eq_true, List.mem_map]
  constructor
  · rintro ⟨_, ⟨⟨p, e | r⟩, hm, rfl⟩, ha⟩
    · simp only [aims, isTarget, Bool.and_eq_true, decide_eq_true_eq] at ha
      exact ⟨e.session, ha.2, p, e, hm, rfl, ha.1.2⟩
    · cases ha
  · rintro ⟨id, ha, p, e, hm, rfl, hen⟩
    exact ⟨_, ⟨_, hm, rfl⟩, by simp [aims, isTarget, h p e hm, hen, ha]⟩

/-- Where only enrichers are registered, every report is kept. -/
theorem submit_of_unruled {s : Program} (h : s.Unruled) (hx : s.ActiveReadsFixed)
    (report : Report) (hint : Hint) :
    let full := s.reporter.withCrumbs report
    let final := if (s.reporter.processors.map (·.2)).any s.aims then s.filled full else full
    (submit report hint s).1 = some final ∧
      (submit report hint s).2.reporter.kept = s.reporter.kept ++ [final] := by
  intro full final
  have hps : ∀ r, Processor.rule r ∉ s.reporter.processors.map (·.2) := fun r hr => by
    obtain ⟨⟨p, _⟩, hm, rfl⟩ := List.mem_map.mp hr
    exact h p r hm
  have hout := process_enrichers hx hint _ hps rfl full
  have hcore := process_core hint _ hps full s
  rcases hr : Reporter.process (runProcessor hint) (s.reporter.processors.map (·.2)) full s with
    ⟨_ | kept, t⟩ <;> rw [hr] at hout hcore
  · cases hout
  · have hfinal : kept = final := Option.some.inj hout
    have hkept : t.reporter.kept = s.reporter.kept :=
      (congrArg (fun u : Program => u.reporter.kept) hcore :)
    have hsub : submit report hint s = (some kept, { t with reporter := t.reporter.keep kept }) := by
      rw [submit, hr]
    rw [hsub, ← hfinal, ← hkept]
    exact ⟨rfl, rfl⟩

end Program

/-- Where only enrichers are registered, a report is always kept, once and under its own identity. If
there is an active session and some enricher was made for it with an integration that is enabled, the
report is filled from that session, as far as its reads are served; otherwise it is kept as it is, with
the breadcrumbs behind its own. Nothing of any other session shows in it. -/
theorem capture_reads_only_the_active_session (now : Timestamp) (retention : Retention)
    (cs : List Command) (report : Report) (hint : Hint) :
    let s := (Command.runAll cs (initial now retention)).program
    s.Unruled → s.ActiveReadsFixed →
      ∃ final, (submit report hint s).1 = some final ∧
        (submit report hint s).2.reporter.kept = s.reporter.kept ++ [final] ∧
        final.eventId = report.eventId ∧
        (∀ id, s.active = some id → s.Covers id →
          final = (fillReport id (s.reporter.withCrumbs report) s).2.1) ∧
        ((∀ id, s.active = some id → ¬ s.Covers id) → final = s.reporter.withCrumbs report) ∧
        ∀ t : Program, t.active = s.active → t.reporter = s.reporter →
          (∀ id, s.active = some id → t.session? id = s.session? id) →
          (submit report hint t).1 = some final ∧
            (submit report hint t).2.reporter.kept = s.reporter.kept ++ [final] := by
  intro s hu hx
  have hown : s.Unorphaned := by
    rw [show s = _ from congrArg World.program (Command.runAll_eq_perform cs _)]
    exact unorphaned_perform (sound_initial now retention) (fun _ _ hm => nomatch hm) _
  obtain ⟨hout, hkept⟩ := submit_of_unruled hu hx report hint
  refine ⟨_, hout, hkept, ?_, fun id ha hc => ?_, fun hc => ?_, fun t ha hr hsame => ?_⟩
  · split
    · exact eventId_filled ..
    · rfl
  · rw [if_pos ((any_aims_iff hown).mpr ⟨id, ha, hc⟩), filled, ha]
    exact (fillReport_eq s id (fun x hs => hx id x ha hs) rfl _).symm
  · rw [if_neg fun hany => ?_]
    obtain ⟨id, ha, hcov⟩ := (any_aims_iff hown).mp hany
    exact hc id ha hcov
  · have htu : t.Unruled := fun p r hm => hu p r (hr ▸ hm)
    have htx : t.ActiveReadsFixed := fun id x hid hs => by
      rw [ha] at hid
      rw [hsame id hid] at hs
      exact hx id x hid hs
    have hfinal := submit_of_unruled htu htx report hint
    rw [aims_eq ha hr, filled_eq ha hsame, hr] at hfinal
    exact hfinal

/-- The reads of a schedule are fixed where none fails only from some point on. -/
theorem Outages.readsFixed {o : Outages} (h : o.readsLeft = none) : o.backend.ReadsFixed := by
  intro history history' a
  simp only [backend, trouble, h]
  cases o.broken.get? a.accessor <;> rfl

/-- A schedule in which the reads of the version crash. -/
def Outages.versionless : Outages := { broken := ⟨[(.version, .crash)]⟩ }

/-- A run in which a session takes the place of one that is left to itself. Two installers put the trail
on the new session, which crashes where its version is read; the integration of the second is disabled. -/
def replacedRun : List Command :=
  [.operation (.enable "spark"), .operation (.enable "second"),
    .operation (.start ⟨⟨0⟩⟩ (.standard (some "ada")) .sound false),
    .operation (.newInstaller .standard), .operation (.newInstaller ⟨"second", ""⟩),
    .operation (.ensureInstalled ⟨0⟩ ⟨⟨0⟩⟩),
    .operation (.start ⟨⟨1⟩⟩ (.standard (some "bob")) Outages.versionless.backend false),
    .operation (.ensureInstalled ⟨0⟩ ⟨⟨1⟩⟩), .operation (.ensureInstalled ⟨1⟩ ⟨⟨1⟩⟩),
    .operation (.disable "second"), .operation (.leave ⟨.epoch, .info, "ready", .empty⟩)]

/-- A report gets the user of the new session, and nothing that is read after the version. It would get no
other one if the session that was left to itself were another user's. -/
theorem capture_reads_the_replacement :
    let s := (Command.runAll replacedRun (initial .epoch .standard)).program
    s.Unruled ∧ s.ActiveReadsFixed ∧ s.active = some ⟨⟨1⟩⟩ ∧ s.Covers ⟨⟨1⟩⟩ ∧
      ∃ final, (submit (.new ⟨7⟩ .epoch .error) .empty s).1 = some final ∧ final.eventId = ⟨7⟩ ∧
        final.at? .userId = some "bob" ∧ final.at? (.tag "executor.id") = some "driver" ∧
        final.at? (.tag "spark_version") = none ∧ final.at? (.tag "app_name") = none ∧
        final.breadcrumbs = [⟨.epoch, .info, "ready", .empty⟩] ∧
        (submit (.new ⟨7⟩ .epoch .error) .empty
          (s.modifySession ⟨⟨0⟩⟩ fun x => { x with settings := .standard (some "eve") })).1 = some final := by
  intro s
  have hp : s.reporter.processors = [(⟨0⟩, .enricher ⟨⟨⟨0⟩⟩, "spark", false⟩),
      (⟨1⟩, .enricher ⟨⟨⟨1⟩⟩, "spark", false⟩), (⟨2⟩, .enricher ⟨⟨⟨1⟩⟩, "second", false⟩)] := by decide
  have unruled : s.Unruled := fun p r => by simp [hp]
  have hactive : s.active = some ⟨⟨1⟩⟩ := by decide
  have hbackend : (s.session? ⟨⟨1⟩⟩).map (·.backend) = some Outages.versionless.backend := rfl
  have fixed : s.ActiveReadsFixed := fun id x hid hx => by
    obtain rfl : id = ⟨⟨1⟩⟩ := Option.some.inj (hid.symm.trans hactive)
    rw [hx, Option.map_some, Option.some.injEq] at hbackend
    rw [hbackend]
    exact Outages.readsFixed rfl
  have hcovers : s.Covers ⟨⟨1⟩⟩ := ⟨⟨1⟩, ⟨⟨⟨1⟩⟩, "spark", false⟩, by simp [hp], rfl, by decide⟩
  obtain ⟨final, hout, _, hid, hfull, _, hother⟩ := capture_reads_only_the_active_session .epoch .standard
    replacedRun (.new ⟨7⟩ .epoch .error) .empty unruled fixed
  have hfinal := hfull ⟨⟨1⟩⟩ hactive hcovers
  have hsame := hother (s.modifySession ⟨⟨0⟩⟩ fun x => { x with settings := .standard (some "eve") })
    rfl rfl fun id ha => by
      rw [session?_modifySession, if_neg]
      rintro rfl
      exact absurd (ha.symm.trans hactive) (by decide)
  have hplaces : final.at? .userId = some "bob" ∧ final.at? (.tag "executor.id") = some "driver" ∧
      final.at? (.tag "spark_version") = none ∧ final.at? (.tag "app_name") = none ∧
      final.breadcrumbs = [⟨.epoch, .info, "ready", .empty⟩] := by
    rw [hfinal]
    decide
  obtain ⟨huser, hexecutor, hversion, happ, hcrumbs⟩ := hplaces
  exact ⟨unruled, fixed, hactive, hcovers, final, hout, hid, huser, hexecutor, hversion, happ, hcrumbs,
    hsame.1⟩

end SessionTrail

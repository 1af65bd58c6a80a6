import SessionTrail.Proofs.Crumbs
import SessionTrail.Proofs.Enrichers

/-!
# While an integration is disabled

A launch through an installer of a disabled integration is its opening. The enrichers of the integration hand
every report on as it is, whenever they were registered.
-/
namespace SessionTrail

open Program World

/-- Whether a processor is an enricher of an integration. -/
def Processor.serves (integration : String) : Processor → Bool
  | .enricher e => e.integration = integration
  | .rule _ => false

namespace Program

variable {s : Program} {integration : String}

/-! ## Launches -/

/-- Whatever its opening does to the integration, a launch whose integration was disabled before adds nothing
to it. -/
theorem run_launch_of_off {ε : Type} {g : InstallerId} (h : s.isOn g = false)
    (start : Action Program ε SessionId) : (launch g start).run s =
      ((start.run s).1.mapError .start, (start.run s).2) := by
  change launch g start s = _
  rw [launch, h]
  rfl

/-! ## Submissions -/

theorem switches_runProcessor (hint : Hint) (p : Processor) (report : Report) (s : Program) :
    (runProcessor hint p report s).2.reporter.integrations = s.reporter.integrations := by
  cases p with
  | enricher e => exact (congrArg (fun u : Program => u.reporter.integrations) (runEnricher_core e report s) :)
  | rule r =>
    simp only [runProcessor, runRule]
    split <;> rfl

theorem switches_submit (report : Report) (hint : Hint) (s : Program) :
    (submit report hint s).2.reporter.integrations = s.reporter.integrations :=
  submit_preserves (P := fun t => t.reporter.integrations = s.reporter.integrations) hint
    (fun p report t h => (switches_runProcessor hint p report t).trans h) (fun _ _ h => h) report rfl

theorem runEnricher_of_disabled {e : Enricher} (h : s.isEnabled e.integration = false) (report : Report) :
    runEnricher e report s = (report, s) := by
  simp only [runEnricher, isTarget, h, Bool.and_false, Bool.false_and, Bool.false_eq_true, if_false]

/-- The enrichers of a disabled integration might as well not be there. -/
theorem process_of_disabled (h : s.isEnabled integration = false) (hint : Hint) (ps : List Processor)
    (report : Report) : Reporter.process (runProcessor hint) ps report s =
      Reporter.process (runProcessor hint) (ps.filter fun p => !p.serves integration) report s := by
  induction ps generalizing report s with
  | nil => rfl
  | cons p rest ih =>
    cases hp : p.serves integration with
    | true =>
      cases p with
      | rule r => cases hp
      | enricher e =>
        have he : e.integration = integration := by simpa [Processor.serves] using hp
        rw [List.filter_cons_of_neg (by simp [hp]), ← ih h]
        simp only [Reporter.process, runProcessor, runEnricher_of_disabled (he ▸ h)]
    | false =>
      have hs := switches_runProcessor hint p report s
      rw [List.filter_cons_of_pos (by simp [hp])]
      simp only [Reporter.process]
      rcases hr : runProcessor hint p report s with ⟨_ | next, t⟩
      · rfl
      · rw [hr] at hs
        refine ih ?_ next
        rw [isEnabled, Reporter.isEnabled, hs]
        exact h

/-- Submit a report to some processors only. -/
def submitTo (ps : List Processor) (report : Report) (hint : Hint) (s : Program) :
    Option Report × Program :=
  match Reporter.process (runProcessor hint) ps (s.reporter.withCrumbs report) s with
  | (some final, s) => (some final, { s with reporter := s.reporter.keep final })
  | (none, s) => (none, s)

theorem submit_of_disabled (h : s.isEnabled integration = false) (report : Report) (hint : Hint) :
    submit report hint s = submitTo
      ((s.reporter.processors.map (·.2)).filter fun p => !p.serves integration) report hint s := by
  rw [submit, process_of_disabled h]
  rfl

/-- Where no processors are registered, a report is kept as it is given. -/
theorem submit_of_no_processors (h : s.reporter.processors = []) (report : Report) (hint : Hint) :
    submit report hint s = (some (s.reporter.withCrumbs report),
      { s with reporter := s.reporter.keep (s.reporter.withCrumbs report) }) := by
  rw [submit, h]
  rfl

/-- If all processors are enrichers of a disabled integration, a report gets no more than the breadcrumbs. -/
theorem submit_of_serving (h : s.isEnabled integration = false)
    (hs : ∀ row ∈ s.reporter.processors, row.2.serves integration = true) (report : Report) (hint : Hint) :
    submit report hint s = (some (s.reporter.withCrumbs report),
      { s with reporter := s.reporter.keep (s.reporter.withCrumbs report) }) := by
  have hnone : ((s.reporter.processors.map (·.2)).filter fun p => !p.serves integration) = [] := by
    refine List.filter_eq_nil_iff.mpr fun p hp => ?_
    obtain ⟨row, hm, rfl⟩ := List.mem_map.mp hp
    simp [hs row hm]
  rw [submit_of_disabled h, hnone]
  rfl

end Program

/-! ## Commands -/

theorem launchEnd_of_off (g : InstallerId) (result : Except String SessionId) :
    launchEnd g false result = [] := by
  cases result <;> rfl

theorem Command.run_launch_of_off {w : World} {g : InstallerId} (hg : g ∈ w.installers)
    (h : w.program.isOn g = false) (opening : List Command) (result : Except String SessionId) :
    (Command.launch g opening result).run w = Command.runAll opening w := by
  rw [Command.run_eq_perform, Command.operations, if_pos hg, h, launchEnd_of_off, List.append_nil,
    ← Command.runAll_eq_perform]

end SessionTrail

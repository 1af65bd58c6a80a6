import SessionTrail.Proofs.Capture

/-!
# Enriching again

Where each read of a session has a fixed answer, a report that has been enriched is enriched again
without any change, and the second time ends as the first one did. So it does not matter how many
enrichers are registered for the active session, nor what enrichers without a session to read from stand
between them: the report that is kept is the one that a single enricher makes.
-/
namespace SessionTrail

open Program World

namespace Report

/-- Fixed answers, read twice. -/
theorem fillByPlan_twice {σ : Type} {read : Attribute → Action σ CallError (Option String)}
    {answer : Attribute → Outcome CallError (Option String)} {P : σ → Prop}
    (hread : ∀ a s, P s → ((read a).run s).1 = answer a ∧ P ((read a).run s).2) (r : Report) {s t : σ}
    (hs : P s) (ht : P t) :
    ((r.fillByPlan read s).2.1.fillByPlan read t).1 = (r.fillByPlan read s).1 ∧
      ((r.fillByPlan read s).2.1.fillByPlan read t).2.1 = (r.fillByPlan read s).2.1 := by
  obtain ⟨hout, hrep⟩ := fillAlong_eq_fillFrom answer enrichmentPlan r hread s hs
  obtain ⟨hout', hrep'⟩ :=
    fillAlong_eq_fillFrom answer enrichmentPlan (r.fillByPlan read s).2.1 hread t ht
  have hagain : fillFrom answer enrichmentPlan (r.fillByPlan read s).2.1 =
      fillFrom answer enrichmentPlan r := by
    rw [fillByPlan, hrep, fillFrom_fillFrom]
  rw [hagain] at hout' hrep'
  exact ⟨hout'.trans hout.symm, hrep'.trans hrep.symm⟩

end Report

namespace Program

/-- A program with other processors on its reporter. -/
def withProcessors (s : Program) (ps : List (ProcessorId × Processor)) : Program :=
  { s with reporter := { s.reporter with processors := ps } }

theorem aims_withProcessors (s : Program) (ps : List (ProcessorId × Processor)) :
    (s.withProcessors ps).aims = s.aims := by
  funext p
  cases p <;> rfl

/-- Of its processors, what is kept depends only on whether some enricher has a session to read from. -/
theorem submit_withProcessors {s : Program} (hx : s.ActiveReadsFixed) (report : Report) (hint : Hint)
    {ps : List (ProcessorId × Processor)} (hps : ∀ p r, (p, Processor.rule r) ∉ ps)
    (haim : ∃ p e, (p, Processor.enricher e) ∈ ps ∧ s.isTarget e = true) :
    (submit report hint (s.withProcessors ps)).1 = some (s.filled (s.reporter.withCrumbs report)) ∧
      (submit report hint (s.withProcessors ps)).2.reporter.kept =
        s.reporter.kept ++ [s.filled (s.reporter.withCrumbs report)] := by
  have hany : (ps.map (·.2)).any s.aims = true := by
    obtain ⟨p, e, hm, he⟩ := haim
    exact List.any_eq_true.mpr ⟨_, List.mem_map_of_mem hm, he⟩
  have hsub := submit_of_unruled (s := s.withProcessors ps) hps hx report hint
  simp only [aims_withProcessors] at hsub
  rw [show (s.withProcessors ps).reporter.processors = ps from rfl, hany] at hsub
  exact hsub

end Program

/-- Where each read of a session has a fixed answer, to enrich a report again changes nothing and ends as
the first time. A report that is submitted while some registered enricher has a session to read from is
therefore kept as if that enricher, or any other one with a session to read from, were the only one. -/
theorem enriching_again_changes_nothing :
    (∀ (σ : Type) (read : Attribute → Action σ CallError (Option String))
      (answer : Attribute → Outcome CallError (Option String)),
      (∀ a s, ((read a).run s).1 = answer a) → ∀ (r : Report) (s : σ),
        let first := r.fillByPlan read s
        let second := first.2.1.fillByPlan read first.2.2
        second.1 = first.1 ∧ second.2.1 = first.2.1) ∧
    (∀ (s : Program) (id : SessionId), (∀ x, s.session? id = some x → x.backend.ReadsFixed) →
      ∀ r : Report,
        let first := fillReport id r s
        let second := fillReport id first.2.1 first.2.2
        second.1 = first.1 ∧ second.2.1 = first.2.1) ∧
    ∀ (s : Program) (report : Report) (hint : Hint), s.Unruled → s.ActiveReadsFixed →
      (∃ p e, (p, Processor.enricher e) ∈ s.reporter.processors ∧ s.isTarget e = true) →
      ∃ final, (submit report hint s).1 = some final ∧
        (submit report hint s).2.reporter.kept = s.reporter.kept ++ [final] ∧
        ∀ p e, s.isTarget e = true →
          let alone := s.withProcessors [(p, .enricher e)]
          (submit report hint alone).1 = some final ∧
            (submit report hint alone).2.reporter.kept = s.reporter.kept ++ [final] := by
  refine ⟨fun σ read answer hread r s => ?_, fun s id hx r => ?_, fun s report hint hu hx hsome => ?_⟩
  · exact Report.fillByPlan_twice (P := fun _ => True) (fun a u _ => ⟨hread a u, trivial⟩) r trivial trivial
  · exact Report.fillByPlan_twice (onSession_read_fixed hx) r rfl
      (fillAlong_core id enrichmentPlan r s)
  · obtain ⟨hout, hkept⟩ := submit_withProcessors hx report hint hu hsome
    refine ⟨_, hout, hkept, fun p e he => submit_withProcessors hx report hint (fun _ _ hm => ?_)
      ⟨p, e, List.mem_singleton_self _, he⟩⟩
    cases List.mem_singleton.mp hm

/-- Three installers put the trail on a session whose version cannot be read without a crash, after one of
them has put it on another session. The integration of the third is disabled. -/
def twiceCoveredRun : List Command :=
  [.operation (.enable "spark"), .operation (.enable "second"), .operation (.enable "third"),
    .operation (.start ⟨⟨0⟩⟩ (.standard (some "ada")) .sound false),
    .operation (.newInstaller .standard), .operation (.newInstaller ⟨"second", ""⟩),
    .operation (.newInstaller ⟨"third", ""⟩), .operation (.ensureInstalled ⟨0⟩ ⟨⟨0⟩⟩),
    .operation (.start ⟨⟨1⟩⟩ (.standard (some "bob")) Outages.versionless.backend false),
    .operation (.ensureInstalled ⟨0⟩ ⟨⟨1⟩⟩), .operation (.ensureInstalled ⟨2⟩ ⟨⟨1⟩⟩),
    .operation (.ensureInstalled ⟨1⟩ ⟨⟨1⟩⟩), .operation (.disable "third")]

/-- Two of the four enrichers fill a report, up to the crash, and either of them alone would do. The same
answers could as well come from something that only counts how often it is asked. -/
theorem covered_twice_is_covered_once :
    let s := (Command.runAll twiceCoveredRun (initial .epoch .standard)).program
    let first := fillReport ⟨⟨1⟩⟩ (.new ⟨7⟩ .epoch .error) s
    let second := fillReport ⟨⟨1⟩⟩ first.2.1 first.2.2
    let counting : Attribute → Action Nat CallError (Option String) :=
      fun a n => (s.answer ⟨⟨1⟩⟩ a, n + 1)
    let counted := first.2.1.fillByPlan counting 0
    first.1 = .crashed ∧ second.1 = .crashed ∧ second.2.1 = first.2.1 ∧
      (counted.2.1.fillByPlan counting counted.2.2).1 = .crashed ∧
      s.reporter.processors.length = 4 ∧
      ∃ final, (submit (.new ⟨7⟩ .epoch .error) .empty s).1 = some final ∧
        final.at? .userId = some "bob" ∧ final.at? (.tag "spark_version") = none ∧
        (submit (.new ⟨7⟩ .epoch .error) .empty
          (s.withProcessors [(⟨1⟩, .enricher ⟨⟨⟨1⟩⟩, "spark", false⟩)])).1 = some final ∧
        (submit (.new ⟨7⟩ .epoch .error) .empty
          (s.withProcessors [(⟨3⟩, .enricher ⟨⟨⟨1⟩⟩, "second", false⟩)])).1 = some final := by
  intro s first second counting counted
  have hp : s.reporter.processors = [(⟨0⟩, .enricher ⟨⟨⟨0⟩⟩, "spark", false⟩),
      (⟨1⟩, .enricher ⟨⟨⟨1⟩⟩, "spark", false⟩), (⟨2⟩, .enricher ⟨⟨⟨1⟩⟩, "third", false⟩),
      (⟨3⟩, .enricher ⟨⟨⟨1⟩⟩, "second", false⟩)] := by decide
  have hactive : s.active = some ⟨⟨1⟩⟩ := by decide
  have hbackend : (s.session? ⟨⟨1⟩⟩).map (·.backend) = some Outages.versionless.backend := rfl
  have hone : s.isTarget ⟨⟨⟨1⟩⟩, "spark", false⟩ = true := by decide
  have htwo : s.isTarget ⟨⟨⟨1⟩⟩, "second", false⟩ = true := by decide
  have hcrash : first.1 = .crashed := by decide
  have hcounted : counted.1 = .crashed := by decide
  have hplaces : (submit (.new ⟨7⟩ .epoch .error) .empty s).1.map
      (fun r => (r.at? .userId, r.at? (.tag "spark_version"))) = some (some "bob", none) := by decide
  -- From here on the run does not matter any more.
  clear_value s
  have unruled : s.Unruled := fun p r => by simp [hp]
  have fixed : ∀ x, s.session? ⟨⟨1⟩⟩ = some x → x.backend.ReadsFixed := fun x hx => by
    rw [hx, Option.map_some, Option.some.injEq] at hbackend
    rw [hbackend]
    exact Outages.readsFixed rfl
  have activeFixed : s.ActiveReadsFixed := fun id x hid hx => by
    obtain rfl : id = ⟨⟨1⟩⟩ := Option.some.inj (hid.symm.trans hactive)
    exact fixed x hx
  obtain ⟨hfixed, hagain, hkept⟩ := enriching_again_changes_nothing
  obtain ⟨hout, hsame⟩ := hagain s ⟨⟨1⟩⟩ fixed (.new ⟨7⟩ .epoch .error)
  have hcountedOut := (hfixed Nat counting (s.answer ⟨⟨1⟩⟩) (fun _ _ => rfl) first.2.1 0).1
  obtain ⟨final, hfinal, _, halone⟩ := hkept s (.new ⟨7⟩ .epoch .error) .empty unruled activeFixed
    ⟨⟨1⟩, ⟨⟨⟨1⟩⟩, "spark", false⟩, by simp [hp], hone⟩
  rw [hfinal, Option.map_some, Option.some.injEq, Prod.mk.injEq] at hplaces
  exact ⟨hcrash, hout.trans hcrash, hsame, hcountedOut.trans hcounted, by rw [hp]; rfl, final, hfinal,
    hplaces.1, hplaces.2, (halone ⟨1⟩ _ hone).1, (halone ⟨3⟩ _ htwo).1⟩

end SessionTrail

import SessionTrail.Enrichment
import SessionTrail.Program

/-!
# Submitting reports

How a report goes through the processors of the program's reporter. The processors that are registered
when it is submitted are the ones that it goes through. An enricher reads only the session that it
was installed for, and only while that is the active one and the integration is enabled.
-/
namespace SessionTrail.Program

/-- Fill a report from a session. -/
def fillReport (id : SessionId) (report : Report) (s : Program) :
    Outcome CallError Unit × Report × Program :=
  report.fillByPlan (fun a => onSession id (Session.read a)) s

/-- Whether an enricher has a session to read from. -/
def isTarget (s : Program) (e : Enricher) : Bool :=
  !e.orphaned && s.isEnabled e.integration && s.active = some e.session

/-- Run an enricher. However the reading ends, the report is handed on. -/
def runEnricher (e : Enricher) (report : Report) (s : Program) : Report × Program :=
  if s.isTarget e then
    let (_, report, s) := fillReport e.session report s
    (report, s)
  else (report, s)

def runRule (hint : Hint) (r : Rule) (report : Report) (s : Program) : Option Report × Program :=
  match r with
  | .crumb message => (some report, s.leave ⟨s.now, report.level, message, .empty⟩)
  | .register inner => (some report, (s.register (.rule inner)).2)
  | .unregister id =>
    let (removed, s) := s.unregister id
    (some (report.put (if removed then "true" else "false") (.extra "removed")), s)
  | r => (r.apply hint report, s)

def runProcessor (hint : Hint) (p : Processor) (report : Report) (s : Program) :
    Option Report × Program :=
  match p with
  | .enricher e =>
    let (report, s) := runEnricher e report s
    (some report, s)
  | .rule r => runRule hint r report s

/-- Submit a report: the report that was kept, unless a processor dropped it. -/
def submit (report : Report) (hint : Hint) (s : Program) : Option Report × Program :=
  match Reporter.process (runProcessor hint) (s.reporter.processors.map (·.2))
      (s.reporter.withCrumbs report) s with
  | (some final, s) => (some final, { s with reporter := s.reporter.keep final })
  | (none, s) => (none, s)

end SessionTrail.Program

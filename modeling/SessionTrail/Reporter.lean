import SessionTrail.Config
import SessionTrail.Report

/-!
# Reporters

A reporter keeps the latest breadcrumbs, up to a limit, and the reports that are submitted to it. Before
a report is kept, the breadcrumbs are appended to it and it goes through the registered processors in
the order of their registration. A processor hands on a report or drops it. Its number is never given to
another one.
-/
namespace SessionTrail

/-- The number of a processor. -/
structure ProcessorId where
  val : Nat
deriving DecidableEq, Repr

/-- A reporter with processors of type `π`. -/
structure Reporter (π : Type) where
  retention : Retention := .standard
  integrations : List String := []
  breadcrumbs : List Breadcrumb := []
  processors : List (ProcessorId × π) := []
  /-- How many processors were ever registered. -/
  registrations : Nat := 0
  /-- The reports that were submitted and not dropped. -/
  kept : List Report := []

namespace Reporter

variable {π : Type}

instance : Inhabited (Reporter π) := ⟨{}⟩

def isEnabled (r : Reporter π) (name : String) : Bool := r.integrations.contains name

def enable (r : Reporter π) (name : String) : Reporter π :=
  if r.isEnabled name then r else { r with integrations := r.integrations ++ [name] }

def disable (r : Reporter π) (name : String) : Reporter π :=
  { r with integrations := r.integrations.filter (· != name) }

/-- Append a breadcrumb to a buffer of at most `limit`, from whose front the oldest ones give way. -/
def pushWithin (limit : Nat) (crumbs : List Breadcrumb) (crumb : Breadcrumb) : List Breadcrumb :=
  if limit = 0 then crumbs else crumbs.drop (crumbs.length + 1 - limit) ++ [crumb]

/-- Keep a breadcrumb. -/
def pushCrumb (r : Reporter π) (crumb : Breadcrumb) : Reporter π :=
  { r with breadcrumbs := pushWithin r.retention.breadcrumbLimit.toNat r.breadcrumbs crumb }

def clearCrumbs (r : Reporter π) : Reporter π := { r with breadcrumbs := [] }

/-- Register a processor behind all others. -/
def register (r : Reporter π) (processor : π) : ProcessorId × Reporter π :=
  let id : ProcessorId := ⟨r.registrations⟩
  (id, { r with processors := r.processors ++ [(id, processor)], registrations := r.registrations + 1 })

def isRegistered (r : Reporter π) (id : ProcessorId) : Bool := r.processors.any (·.1 = id)

/-- Remove a processor; whether it was registered. -/
def unregister (r : Reporter π) (id : ProcessorId) : Bool × Reporter π :=
  (r.isRegistered id, { r with processors := r.processors.filter (·.1 ≠ id) })

/-- A report with the breadcrumbs behind its own. -/
def withCrumbs (r : Reporter π) (report : Report) : Report :=
  { report with breadcrumbs := report.breadcrumbs ++ r.breadcrumbs }

/-- Keep a report. -/
def keep (r : Reporter π) (report : Report) : Reporter π :=
  { r with kept := r.kept ++ [report] }

/-- Send a report through processors up to the first that drops it. A processor may change the state
in which it runs. -/
def process {σ : Type} (step : π → Report → σ → Option Report × σ) :
    List π → Report → σ → Option Report × σ
  | [], report, s => (some report, s)
  | p :: rest, report, s =>
    match step p report s with
    | (some next, s) => process step rest next s
    | (none, s) => (none, s)

/-- Submit a report to processors that do not change the reporter: the report that was kept. -/
def submit (step : π → Report → Option Report) (r : Reporter π) (report : Report) :
    Option Report × Reporter π :=
  match process (fun p report (_ : Unit) => (step p report, ())) (r.processors.map (·.2))
      (r.withCrumbs report) () with
  | (some final, _) => (some final, r.keep final)
  | (none, _) => (none, r)

end Reporter

end SessionTrail

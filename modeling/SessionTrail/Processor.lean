import SessionTrail.Json.Access
import SessionTrail.Json.Print
import SessionTrail.Reporter

/-!
# Processors

A processor of reports is either an enricher, which fills a report from the session that it was
installed for, or a rule. Rules are fixed steps; some of them also act on the reporter.
-/
namespace SessionTrail

open Json

/-- Fills reports from one session while an integration is enabled. An enricher whose reporter is
gone is orphaned and leaves every report as it is. -/
structure Enricher where
  session : SessionId
  integration : String
  orphaned : Bool
deriving DecidableEq, Repr

/-- A fixed step on a report. -/
inductive Rule where
  | put (value : String) (place : Place)
  | putIfAbsent (value : String) (place : Place)
  | untag (key : String)
  | drop
  | dropLevel (level : Level)
  /-- Write a value of the hint into the further data. -/
  | hint (key : String)
  /-- Write the number of breadcrumbs into the further data. -/
  | count
  /-- Leave a breadcrumb with the report's level. -/
  | crumb (message : String)
  /-- Register a rule. -/
  | register (rule : Rule)
  /-- Remove a processor and write whether it was registered into the further data. -/
  | unregister (id : ProcessorId)
deriving DecidableEq, Repr

/-- A processor of reports. -/
inductive Processor where
  | enricher (e : Enricher)
  | rule (r : Rule)
deriving DecidableEq, Repr

/-- The key under which a hint's value is written. -/
def hintKey (key : String) : String := "hint." ++ key

namespace Rule

def read? : Nat → Value → Option Rule
  | 0, _ => none
  | depth + 1, v => do
    let text := v.text?
    match ← text "kind" with
    | "tag_if_absent" => return .putIfAbsent (← text "value") (.tag (← text "key"))
    | "extra_if_absent" => return .putIfAbsent (← text "value") (.extra (← text "key"))
    | "user_if_absent" => return .putIfAbsent (← text "value") .userId
    | "tag" => return .put (← text "value") (.tag (← text "key"))
    | "untag" => return .untag (← text "key")
    | "drop" => return .drop
    | "drop_level" => return .dropLevel (← Level.ofText? (← text "level"))
    | "hint" => return .hint (← text "key")
    | "count" => return .count
    | "crumb" => return .crumb (← text "value")
    | "register" => return .register (← read? depth (← v.member? "inner"))
    | "unregister" => return .unregister ⟨← (← v.member? "id").nat?⟩
    | _ => none

/-- The rule that a JSON object describes. -/
def ofValue? (v : Value) : Option Rule := read? v.depth v

/-- Run a rule that only looks at the report and the hint; any other hands on the report. -/
def apply (hint : Hint) (report : Report) : Rule → Option Report
  | .put value place => some (report.put value place)
  | .putIfAbsent value place => some (report.putIfAbsent value place).1
  | .untag key => some (report.withoutTag key)
  | .drop => none
  | .dropLevel level => if report.level = level then none else some report
  | .hint key =>
    match hint.values.get? key with
    | some v => some (report.putIfAbsent v.value.text (.extra (hintKey key))).1
    | none => some report
  | .count => some (report.put (decimalText report.breadcrumbs.length) (.extra "count"))
  | .crumb _ | .register _ | .unregister _ => some report

end Rule

end SessionTrail

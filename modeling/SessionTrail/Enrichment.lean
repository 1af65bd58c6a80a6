import SessionTrail.Action
import SessionTrail.Report
import SessionTrail.Session.Backend

/-!
# Enrichment

A report is filled from the attributes of a session along a fixed plan. What the report already says
stays, and the attribute for it is not even read. An attribute that the session does not have fills
nothing. The first read that is not served ends the enrichment, and the report is left as far as it
got by then.
-/
namespace SessionTrail

/-- The places in the order in which they are filled, each with the attribute that fills it. -/
def enrichmentPlan : List (Place × Attribute) :=
  [(.userId, .fact .user),
    (.tag "executor.id", .setting (.conf "spark.executor.id")),
    (.tag "spark-submit.deployMode", .setting (.conf "spark.submit.deployMode")),
    (.tag "driver.host", .setting (.conf "spark.driver.host")),
    (.tag "driver.port", .setting (.conf "spark.driver.port")),
    (.tag "spark_version", .fact .version),
    (.tag "app_name", .fact .appName),
    (.tag "application_id", .fact .applicationId),
    (.tag "master", .fact .master),
    (.tag "spark_home", .setting .home),
    (.extra "web_url", .setting .webUrl)]

/-- Fill the places of a plan from attributes that `read` reads: how that ended, the report as far as
it got, and the state of what was read. -/
def Report.fillAlong {σ : Type} (read : Attribute → Action σ CallError (Option String)) :
    List (Place × Attribute) → Report → σ → Outcome CallError Unit × Report × σ
  | [], r, s => (.done (), r, s)
  | (place, a) :: rest, r, s =>
    if (r.at? place).isSome then fillAlong read rest r s
    else
      match (read a).run s with
      | (.done (some value), s) => fillAlong read rest (r.put value place) s
      | (.done none, s) => fillAlong read rest r s
      | (.failed e, s) => (.failed e, r, s)
      | (.crashed, s) => (.crashed, r, s)

/-- Fill a report along the enrichment plan. -/
def Report.fillByPlan {σ : Type} (read : Attribute → Action σ CallError (Option String))
    (r : Report) (s : σ) : Outcome CallError Unit × Report × σ :=
  r.fillAlong read enrichmentPlan s

end SessionTrail

import SessionTrail.Json.Access
import SessionTrail.Session.Backend
import SessionTrail.Table

/-!
# Outages

A schedule of troubles that a backend follows: reads that always fail, reads that fail from some point
on, and changes that fail for a while.
-/
namespace SessionTrail

open Json

/-- A schedule of troubles. -/
structure Outages where
  applicationId : Option String := none
  /-- The reads that always fail. -/
  broken : Table Accessor Trouble := {}
  /-- How many other reads are served before all fail. -/
  readsLeft : Option (Nat × Trouble) := none
  /-- How many writes are served first. -/
  skipWrites : Nat := 0
  /-- How many writes are refused then. -/
  failingWrites : Nat := 0
  /-- How many attachments of listeners are refused at first. -/
  failingAttaches : Nat := 0
  /-- How many detachments of listeners are refused at first. -/
  failingDetaches : Nat := 0
deriving DecidableEq, Repr

namespace Outages

/-- Whether a call is a read that is not among those that always fail. -/
def countsAsRead (o : Outages) : Call → Bool
  | .read a => !o.broken.contains a.accessor
  | .write .. | .attach | .detach => false

def isWrite : Call → Bool
  | .write .. => true
  | .read _ | .attach | .detach => false

/-- The trouble with a call after the calls in `history`. -/
def trouble (o : Outages) (history : List Call) : Call → Option Trouble
  | .read a =>
    match o.broken.get? a.accessor, o.readsLeft with
    | some t, _ => some t
    | none, some (n, t) => if history.countP o.countsAsRead < n then none else some t
    | none, none => none
  | .write .. =>
    let made := history.countP isWrite
    if o.skipWrites ≤ made ∧ made < o.skipWrites + o.failingWrites then
      some (.refusal (.unavailable "property store busy"))
    else none
  | .attach =>
    if history.count .attach < o.failingAttaches then
      some (.refusal (.unavailable "listener bus restarting"))
    else none
  | .detach =>
    if history.count .detach < o.failingDetaches then
      some (.refusal (.unavailable "listener bus restarting"))
    else none

/-- The backend that follows a schedule. -/
def backend (o : Outages) : Backend := ⟨o.applicationId, o.trouble⟩

/-- The trouble that a text names. Any text but two is the reason of a refusal. -/
def troubleOfText (text : String) : Trouble :=
  if text = "stopped" then .refusal .stopped
  else if text = "panic" then .crash
  else .refusal (.unavailable text)

/-- The schedule that a JSON object describes. What it leaves out causes no trouble. -/
def ofValue (v : Value) : Outages :=
  let count (name : String) : Nat := ((v.member? name).bind Value.nat?).getD 0
  { applicationId := v.text? "application_id"
    broken := (v.texts "fail").foldl
      (fun t (name, text) => match Accessor.ofText? name with
        | some a => t.set a (troubleOfText text)
        | none => t) {}
    readsLeft := ((v.member? "reads_left").bind Value.nat?).map fun n =>
      (n, troubleOfText ((v.text? "then").getD ""))
    skipWrites := count "skip_writes"
    failingWrites := count "failing_writes"
    failingAttaches := count "failing_adds"
    failingDetaches := count "failing_removals" }

end Outages

end SessionTrail

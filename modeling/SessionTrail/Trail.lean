import SessionTrail.Program

/-!
# The trail

What a listener does with an event. The trail leaves a breadcrumb for each job that starts or ends and
for each attempt at a stage that is submitted or completed; all other events leave none. When a job
starts or an attempt is submitted, the identity properties of the session that is active then are
written afresh.
-/
namespace SessionTrail

/-- The level and message of a breadcrumb, and its data. -/
structure Note where
  level : Level
  message : String
  data : List (String × String)
deriving DecidableEq, Repr

def Note.crumb (now : Timestamp) (n : Note) : Breadcrumb := ⟨now, n.level, n.message, .ofList n.data⟩

/-- The data that every note on an attempt at a stage has. -/
def StageAttempt.data (a : StageAttempt) : List (String × String) :=
  [("attemptId", a.attemptText), ("name", a.name)]

namespace Event

/-- What the trail notes of an event. An attempt at a stage has failed if there is a reason; where the
reason cannot be read, nothing is known. -/
def note : Event → Except RemoteError (Option Note)
  | .jobStart job _ _ => .ok (some ⟨.info, "Job " ++ job.text ++ " Started", []⟩)
  | .jobEnd job _ .succeeded =>
    .ok (some ⟨.info, "Job " ++ job.text ++ " Ended", [("result", JobOutcome.succeeded.text)]⟩)
  | .jobEnd job _ (.failed reason) =>
    .ok (some ⟨.warning, "Job " ++ job.text ++ " Failed",
      [("result", (JobOutcome.failed reason).text)]⟩)
  | .stageSubmitted a =>
    .ok (some ⟨.info, "Stage " ++ a.stage.text ++ " Submitted", a.data⟩)
  | .stageCompleted a =>
    match a.failureReason.get with
    | .ok reason =>
      .ok (some ⟨.warning, "Stage " ++ a.stage.text ++ " Failed", ("reason", reason) :: a.data⟩)
    | .error .empty =>
      .ok (some ⟨.info, "Stage " ++ a.stage.text ++ " Completed", a.data⟩)
    | .error (.unreachable why) => .error (.unreachable why)
  | _ => .ok none

/-- Whether the identity properties are written afresh. -/
def refreshesIdentity : Event → Bool
  | .jobStart .. | .stageSubmitted _ => true
  | _ => false

end Event

namespace Program

/-- Write the identity properties of a session, if there is one. -/
def writeIdentity (keyPrefix : String) : Option SessionId → Action Program CallError Unit
  | some id => onSession id (Session.writeIdentity keyPrefix)
  | none => pure ()

/-- Write the identity properties of the active session. One that has stopped needs none. -/
def refreshIdentity (keyPrefix : String) : Action Program HandlingError Unit := fun s =>
  match (writeIdentity keyPrefix s.active).run s with
  | (.failed .stopped, s) => (.done (), s)
  | (outcome, s) => (outcome.mapError .other, s)

/-- Leave the trail of an event. -/
def trail (keyPrefix : String) (e : Event) : Action Program HandlingError Unit := fun s =>
  match e.note with
  | .error why => (.failed (.field why), s)
  | .ok none => (.done (), s)
  | .ok (some note) =>
    let s := s.leave (note.crumb s.now)
    if e.refreshesIdentity then (refreshIdentity keyPrefix).run s else (.done (), s)

/-- Write down that a listener took an event. -/
def record (s : Program) (id : ListenerId) (kind : EventKind) : Program :=
  { s with recorded := s.recorded.set id ((s.recorded.get? id).getD [] ++ [kind]) }

/-- Hand an event to a listener. -/
def notify (l : Listener) (e : Event) : Action Program HandlingError Unit :=
  match l.behaviour with
  | .silent => pure ()
  | .trail keyPrefix => trail keyPrefix e
  | .recorder answers => do
    Action.modify (·.record l.id e.kind)
    match answers.get? e.kind with
    | some error => Action.fail error
    | none => pure ()

end Program

end SessionTrail

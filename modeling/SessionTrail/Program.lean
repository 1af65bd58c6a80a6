import SessionTrail.Identity
import SessionTrail.Integration
import SessionTrail.Processor

/-!
# The program

A program with its engine sessions, one of which may be the active one, its reporter, and the
installers, listeners and integrations that it has made. Whatever the parts do, they do to this state.
-/
namespace SessionTrail

/-- The state of a program. -/
structure Program where
  /-- The time that a clock shows. -/
  now : Timestamp
  sessions : Table SessionId Session := {}
  /-- The session that stands in the shared place. -/
  active : Option SessionId := none
  reporter : Reporter Processor := {}
  installers : Table InstallerId Installer := {}
  integrations : Table IntegrationId Integration := {}
  /-- How many listeners were ever made. -/
  listeners : Nat := 0
  /-- The kinds of the events that each recording listener has taken. -/
  recorded : Table ListenerId (List EventKind) := {}

namespace Program

/-! ## Sessions -/

def session? (s : Program) (id : SessionId) : Option Session := s.sessions.get? id

def modifySession (s : Program) (id : SessionId) (f : Session → Session) : Program :=
  { s with sessions := s.sessions.modify id f }

/-- Act on a session. One that is not there counts as stopped. -/
def onSession {α : Type} (id : SessionId) (m : Action Session CallError α) :
    Action Program CallError α := fun s =>
  match s.session? id with
  | some session =>
    let (outcome, session) := m.run session
    (outcome, { s with sessions := s.sessions.set id session })
  | none => (.failed .stopped, s)

/-- The application's identity in a session that is started at a time. -/
def localApplicationId (now : Timestamp) : String := "local-" ++ toString now.epochMillis

/-- Start a session under an identity that no session has, as the active one at its home. -/
def start (s : Program) (id : SessionId) (settings : Settings) (backend : Backend) (home : Home) :
    Program :=
  if s.sessions.contains id then s
  else
    let session : Session :=
      { settings := settings.started
        applicationId := localApplicationId s.now
        backend
        home }
    { s with
      sessions := s.sessions.set id session
      active := if home = .shared then some id else s.active }

/-- Whether a session can still be reached: somebody outside holds on to it, or it stands as an active
one. -/
def isReachable (s : Program) (id : SessionId) : Bool :=
  match s.session? id with
  | some session => session.held || s.active = some id || session.home = .own true
  | none => false

/-- Let go of a session; whether it was held. -/
def release (s : Program) (id : SessionId) : Bool × Program :=
  ((s.session? id).any (·.held), s.modifySession id fun session => { session with held := false })

/-- Make a session the active one: the session that it replaces. -/
def makeActive (s : Program) (id : SessionId) : Option SessionId × Program :=
  (s.active, { s with active := some id })

/-- Empty the shared place if a session stands in it; whether it did. -/
def clearActive (s : Program) (id : SessionId) : Bool × Program :=
  if s.active = some id then (true, { s with active := none }) else (false, s)

def setBackend (s : Program) (id : SessionId) (backend : Backend) : Program :=
  s.modifySession id (·.withBackend backend)

/-- Take the calls of a session that have been written down. -/
def takeLog (s : Program) (id : SessionId) : List Call × Program :=
  match s.session? id with
  | some session =>
    let (log, session) := session.takeLog
    (log, { s with sessions := s.sessions.set id session })
  | none => ([], s)

def hasStopped (s : Program) (id : SessionId) : Bool := (s.session? id).any (·.stopped)

/-! ## Listeners, installers and the reporter -/

def newListener (s : Program) (behaviour : Behaviour) (owner : Option InstallerId) :
    Listener × Program :=
  (⟨⟨s.listeners⟩, behaviour, owner⟩, { s with listeners := s.listeners + 1 })

def newInstaller (s : Program) (config : Config) : InstallerId × Program :=
  let id : InstallerId := ⟨s.installers.rows.length⟩
  (id, { s with installers := s.installers.set id { config } })

def newIntegration (s : Program) (config : Config) : IntegrationId × Program :=
  let id : IntegrationId := ⟨s.integrations.rows.length⟩
  (id, { s with integrations := s.integrations.set id { config } })

def leave (s : Program) (crumb : Breadcrumb) : Program :=
  { s with reporter := s.reporter.pushCrumb crumb }

def register (s : Program) (p : Processor) : ProcessorId × Program :=
  let (id, reporter) := s.reporter.register p
  (id, { s with reporter })

/-- Remove a processor; whether it was registered. -/
def unregister (s : Program) (id : ProcessorId) : Bool × Program :=
  let (removed, reporter) := s.reporter.unregister id
  (removed, { s with reporter })

def isEnabled (s : Program) (integration : String) : Bool := s.reporter.isEnabled integration

end Program

end SessionTrail

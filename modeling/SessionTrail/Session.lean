import SessionTrail.Action
import SessionTrail.Bus
import SessionTrail.Listener
import SessionTrail.Settings

/-!
# Sessions

A session of an engine: its settings, the properties that its workers see, and the listeners to which
it hands its events. Each listener has a worker with a queue of its own. All calls go through the
backend; what the backend lets pass is served while the session runs and refused after it has stopped.
-/
namespace SessionTrail

/-- Delivers a session's events to one listener. Workers are numbered in the order in which they were
attached to the session. -/
structure Worker where
  number : Nat
  listener : Listener
  subscription : SubscriptionId
deriving DecidableEq, Repr

/-- Where a session enters itself as the active one: in the place that all share, or in a place of
its own, where it stands until it stops. -/
inductive Home where
  | shared
  | own (entered : Bool)
deriving DecidableEq, Repr

/-- A session. -/
structure Session where
  settings : Settings
  applicationId : String
  bus : Bus Event := {}
  workers : List Worker := []
  /-- How many listeners were ever attached. -/
  added : Nat := 0
  properties : SortedMap String := .empty
  /-- How many writes of properties were served. -/
  writes : Nat := 0
  stopped : Bool := false
  backend : Backend := .sound
  /-- The calls that the present backend has seen. -/
  history : List Call := []
  /-- The calls since the log was last taken. -/
  log : List Call := []
  /-- Whether somebody outside holds on to the session. -/
  held : Bool := true
  home : Home := .shared

namespace Session

/-- A fact about a session, as it stands. -/
def fact (s : Session) : Fact → String
  | .appName => s.settings.appName
  | .applicationId => s.backend.applicationId.getD s.applicationId
  | .version => s.settings.version
  | .master => s.settings.master
  | .user => s.settings.user

/-- A setting of a session, as it stands. -/
def setting (s : Session) : Setting → Option String
  | .home => s.settings.home
  | .webUrl => s.settings.webUrl
  | .conf key => s.settings.conf.get? key

/-- What an attribute is, as it stands. -/
def valueOf (s : Session) : Attribute → Option String
  | .fact f => some (s.fact f)
  | .setting t => s.setting t

/-- Write a call down. -/
def note (s : Session) (c : Call) : Session :=
  { s with history := s.history ++ [c], log := s.log ++ [c] }

/-- Put a call to the backend. -/
def consult (c : Call) : Action Session CallError Unit := fun s =>
  match s.backend.trouble s.history c with
  | none => (.done (), s.note c)
  | some (.refusal e) => (.failed e, s.note c)
  | some .crash => (.crashed, s.note c)

/-- Put a call to the backend, then refuse it if the session has stopped. -/
def attempt (c : Call) : Action Session CallError Unit := do
  consult c
  if (← Action.get).stopped then Action.fail .stopped

def readFact (f : Fact) : Action Session CallError String := do
  attempt (.read (.fact f))
  return (← Action.get).fact f

def read (a : Attribute) : Action Session CallError (Option String) := do
  attempt (.read a)
  return (← Action.get).valueOf a

def write (key value : String) : Action Session CallError Unit := do
  attempt (.write key value)
  Action.modify fun s =>
    { s with properties := s.properties.insert key value, writes := s.writes + 1 }

/-- Read a property. The backend is not asked. -/
def readProperty (key : String) : Action Session CallError (Option String) := do
  let s ← Action.get
  if s.stopped then Action.fail .stopped
  return s.properties.get? key

/-- Give a listener a new worker behind all others. -/
def addWorker (s : Session) (l : Listener) : Session :=
  let (subscription, bus) := s.bus.subscribe
  { s with bus, workers := s.workers ++ [⟨s.added, l, subscription⟩], added := s.added + 1 }

/-- Ask for a listener to be attached. -/
def attach (l : Listener) : Action Session CallError Unit := do
  attempt .attach
  Action.modify (·.addWorker l)

/-- The first worker of a listener. -/
def workerOf? (s : Session) (l : ListenerId) : Option Worker :=
  s.workers.find? (·.listener.id = l)

/-- End a worker: it gets no more events, and what is in its queue is lost. -/
def endWorker (s : Session) (w : Worker) : Session :=
  { s with workers := s.workers.erase w, bus := s.bus.drop w.subscription }

/-- The worker's listener crashed: it gets no more events but stays among the workers. -/
def silence (s : Session) (w : Worker) : Session := { s with bus := s.bus.drop w.subscription }

def listenerCount (s : Session) : Nat := s.workers.length

/-- Hand an event to the workers' queues, unless the session has stopped. -/
def post (e : Event) : Action Session CallError Unit := do
  if (← Action.get).stopped then Action.fail .stopped
  Action.modify fun s => { s with bus := (s.bus.publish e).2 }

/-- Replace the backend by one that has seen no calls. -/
def withBackend (s : Session) (backend : Backend) : Session := { s with backend, history := [] }

/-- Take the calls that have been written down. -/
def takeLog (s : Session) : List Call × Session := (s.log, { s with log := [] })

end Session

end SessionTrail

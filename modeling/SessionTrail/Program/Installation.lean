import SessionTrail.Program.Delivery

/-!
# Installation

How an installer puts the trail on a session: a listener, the identity properties, and an enricher on
the reporter. The session is reserved first, so that nobody else installs meanwhile. An installation
that fails takes its listener back; if it cannot, the session is stranded and left alone from then on.
Before anything else, sessions that have stopped or cannot be reached are forgotten and their enrichers
removed.
-/
namespace SessionTrail

/-- Why the trail could not be put on a session. -/
inductive InstallError where
  | session (e : CallError)
  | stranded (id : SessionId)
deriving DecidableEq, Repr

def InstallError.message : InstallError → String
  | .session e => "session: " ++ e.message
  | .stranded id => "session " ++ id.text ++ " is partially instrumented"

/-- What a caller is told: it put the trail on the session, somebody had done so before, or somebody is
at it and has to be waited for. -/
inductive InstallReply where
  | installed
  | alreadyInstalled
  | waiting
deriving DecidableEq, Repr

/-- What a caller that wants to reserve a session is told. With a grant comes the configuration. -/
inductive Reservation where
  | granted (config : Config)
  | installed
  | stranded
  | waiting
deriving DecidableEq, Repr

namespace Program

def installer? (s : Program) (g : InstallerId) : Option Installer := s.installers.get? g

def modifyInstaller (s : Program) (g : InstallerId) (f : Installer → Installer) : Program :=
  { s with installers := s.installers.modify g f }

/-- Whether a session is to be forgotten by an installer that stands with it so. -/
def isGone (s : Program) (id : SessionId) (standing : Standing) : Bool :=
  standing != .installing && (!s.isReachable id || s.hasStopped id)

/-- Forget the sessions that have stopped or cannot be reached, and remove their enrichers; how many
were forgotten. -/
def forgetGone (g : InstallerId) (s : Program) : Nat × Program :=
  match s.installer? g with
  | none => (0, s)
  | some installer =>
    let gone := installer.standings.rows.filter fun row => s.isGone row.1 row.2
    let kept := installer.standings.rows.filter fun row => !s.isGone row.1 row.2
    let s := s.modifyInstaller g fun installer => { installer with standings := ⟨kept⟩ }
    (gone.length, (gone.filterMap (·.2.processor?)).foldl (fun s p => (s.unregister p).2) s)

/-- Reserve a session that an installer has not dealt with. One that is not there grants nothing. -/
def reserve (g : InstallerId) (id : SessionId) (s : Program) : Reservation × Program :=
  match s.installer? g with
  | none => (.waiting, s)
  | some installer =>
    match installer.standings.get? id with
    | some .installing => (.waiting, s)
    | some (.installed _) => (.installed, s)
    | some .stranded => (.stranded, s)
    | none =>
      (.granted installer.config, s.modifyInstaller g fun installer =>
        { installer with standings := installer.standings.set id .installing })

/-- Write down how an installer stands with a session, or forget the session. -/
def setStanding (g : InstallerId) (id : SessionId) (standing : Option Standing) (s : Program) :
    Program :=
  s.modifyInstaller g fun installer =>
    { installer with
      standings := match standing with
        | some standing => installer.standings.set id standing
        | none => installer.standings.erase id }

/-- An installation that failed, and whether its listener could not be detached. -/
structure InstallFailure where
  error : CallError
  stranded : Bool
deriving DecidableEq, Repr

/-- Take a listener back after a later step of the installation has failed. -/
def rollBack (id : SessionId) (l : Listener) (error : CallError) :
    Action Program InstallFailure ProcessorId := fun s =>
  match (detach id l).run s with
  | (.done _, s) => (.failed ⟨error, false⟩, s)
  | (.failed _, s) => (.failed ⟨error, true⟩, s)
  | (.crashed, s) => (.crashed, s)

/-- Put a listener, the identity properties and an enricher in place, in this order. -/
def install (g : InstallerId) (config : Config) (id : SessionId) :
    Action Program InstallFailure ProcessorId := fun s =>
  let (l, s) := s.newListener (.trail config.keyPrefix) (some g)
  match (attach id l).run s with
  | (.failed e, s) => (.failed ⟨e, false⟩, s)
  | (.crashed, s) => (.crashed, s)
  | (.done (), s) =>
    match (writeIdentity config.keyPrefix (some id)).run s with
    | (.failed e, s) => (rollBack id l e).run s
    | (.crashed, s) => (.crashed, s)
    | (.done (), s) =>
      let (p, s) := s.register (.enricher ⟨id, config.integration, false⟩)
      (.done p, s)

/-- Install the trail on a session that has been reserved. After a crash the session is forgotten, and
all else is left as it is. -/
def installReserved (g : InstallerId) (config : Config) (id : SessionId) :
    Action Program InstallError InstallReply := fun s =>
  match (install g config id).run s with
  | (.done p, s) => (.done .installed, setStanding g id (some (.installed p)) s)
  | (.failed f, s) =>
    (.failed (.session f.error), setStanding g id (if f.stranded then some .stranded else none) s)
  | (.crashed, s) => (.crashed, setStanding g id none s)

/-- Put the trail on a session, unless that has been done. -/
def ensureInstalled (g : InstallerId) (id : SessionId) :
    Action Program InstallError InstallReply := fun s =>
  match reserve g id (forgetGone g s).2 with
  | (.granted config, s) => (installReserved g config id).run s
  | (.installed, s) => (.done .alreadyInstalled, s)
  | (.stranded, s) => (.failed (.stranded id), s)
  | (.waiting, s) => (.done .waiting, s)

end Program

end SessionTrail

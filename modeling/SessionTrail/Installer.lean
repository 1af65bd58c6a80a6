import SessionTrail.Reporter
import SessionTrail.Table

/-!
# Installers

An installer sees to it that a session gets the trail at most once. It remembers how it stands with
each session that it has dealt with: somebody is `installing` and others wait, the trail is
`installed`, or the session is `stranded` because an installation failed and its listener could not be
detached.
-/
namespace SessionTrail

structure InstallerId where
  val : Nat
deriving DecidableEq, Repr

/-- How an installer stands with a session. -/
inductive Standing where
  | installing
  | installed (processor : ProcessorId)
  | stranded
deriving DecidableEq, Repr

/-- An installer. -/
structure Installer where
  config : Config
  standings : Table SessionId Standing := {}
deriving DecidableEq, Repr

namespace Standing

/-- Whether the trail is installed. -/
def isInstalled : Standing → Bool
  | .installed _ => true
  | .installing | .stranded => false

/-- The processor that an installation registered. -/
def processor? : Standing → Option ProcessorId
  | .installed p => some p
  | .installing | .stranded => none

end Standing

namespace Installer

/-- Whether the trail is installed on a session. -/
def hasInstalled (g : Installer) (id : SessionId) : Bool :=
  (g.standings.get? id).any Standing.isInstalled

/-- The sessions on which the trail is installed. -/
def installedSessions (g : Installer) : List SessionId :=
  (g.standings.rows.filter (·.2.isInstalled)).map (·.1)

end Installer

end SessionTrail

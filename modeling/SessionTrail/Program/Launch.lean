import SessionTrail.Program.Installation

/-!
# Launching sessions

How a program gets the trail without asking for it: an integration that is set up puts it on the
session that is active already, and every session that is started through its installer gets it as
soon as it runs. While the integration is disabled on the reporter, both leave sessions alone.
-/
namespace SessionTrail

/-- Why a launch failed: the session did not start, or it did not get the trail. -/
inductive LaunchError (ε : Type) where
  | start (e : ε)
  | install (e : InstallError)
deriving DecidableEq, Repr

namespace Program

/-- Whether the integration of an installer is enabled on the reporter. -/
def isOn (s : Program) (g : InstallerId) : Bool :=
  (s.installer? g).any fun installer => s.isEnabled installer.config.integration

/-- Start a session and put the trail on it. -/
def launch {ε : Type} (g : InstallerId) (start : Action Program ε SessionId) :
    Action Program (LaunchError ε) SessionId := fun s =>
  if s.isOn g then
    match start.run s with
    | (.done id, s) =>
      match (ensureInstalled g id).run s with
      | (.done _, s) => (.done id, s)
      | (.failed e, s) => (.failed (.install e), s)
      | (.crashed, s) => (.crashed, s)
    | (.failed e, s) => (.failed (.start e), s)
    | (.crashed, s) => (.crashed, s)
  else (start.mapError .start).run s

def keepInstaller (i : IntegrationId) (g : InstallerId) (s : Program) : Program :=
  { s with integrations := s.integrations.modify i fun integration =>
      { integration with installer := some g } }

/-- Set an integration up: the installer that it keeps. If the active session cannot be given the
trail, the integration keeps none, and the next attempt begins with a new one. -/
def setUp (i : IntegrationId) : Action Program InstallError InstallerId := fun s =>
  match s.integrations.get? i with
  | some ⟨_, some g⟩ => (.done g, s)
  | integration =>
    let (g, s) := s.newInstaller ((integration.map (·.config)).getD .standard)
    match s.isOn g, s.active with
    | true, some id =>
      match (ensureInstalled g id).run s with
      | (.done _, s) => (.done g, keepInstaller i g s)
      | (.failed e, s) => (.failed e, s)
      | (.crashed, s) => (.crashed, s)
    | _, _ => (.done g, keepInstaller i g s)

end Program

end SessionTrail

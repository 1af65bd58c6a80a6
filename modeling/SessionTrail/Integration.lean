import SessionTrail.Installer

/-!
# Integrations

An integration is the configured trail of a program. It is set up once: the installer that it gets then
is the one it keeps.
-/
namespace SessionTrail

structure IntegrationId where
  val : Nat
deriving DecidableEq, Repr

/-- An integration with its installer, once it has been set up. -/
structure Integration where
  config : Config
  installer : Option InstallerId := none
deriving DecidableEq, Repr

end SessionTrail

import SessionTrail.Event
import SessionTrail.Installer
import SessionTrail.Session.Backend

/-!
# Listeners

A listener takes the events of the sessions that it is attached to. What it does with them is its
behaviour. Two listeners with the same behaviour are still two: they are told apart by their numbers.
-/
namespace SessionTrail

/-- Why a listener could not deal with an event. -/
inductive HandlingError where
  | field (e : RemoteError)
  | other (e : CallError)
deriving DecidableEq, Repr

def HandlingError.message : HandlingError → String
  | .field e => e.message
  | .other e => e.message

/-- The handling error that a text names: `empty`, or a session that is not available for the reason
behind `other:`, or else a field that cannot be reached. -/
def HandlingError.ofText (text : String) : HandlingError :=
  if text = "empty" then .field .empty
  else
    match text.toList with
    | 'o' :: 't' :: 'h' :: 'e' :: 'r' :: ':' :: reason => .other (.unavailable (String.ofList reason))
    | _ => .field (.unreachable text)

structure ListenerId where
  val : Nat
deriving DecidableEq, Repr

/-- What a listener does with events: nothing, leave a trail of breadcrumbs while keeping the
properties of the active session fresh, or write them down and answer as it was told. -/
inductive Behaviour where
  | silent
  | trail (keyPrefix : String)
  | recorder (answers : Table EventKind HandlingError)
deriving DecidableEq, Repr

/-- A listener, with the installer that made it, if one did. -/
structure Listener where
  id : ListenerId
  behaviour : Behaviour
  owner : Option InstallerId
deriving DecidableEq, Repr

end SessionTrail

import SessionTrail.Json.Decode
import SessionTrail.Json.Encode

/-!
# Jobs

A job has a number and ends in one of two ways: it succeeds, or it fails, with a reason if one is known.
A number is written in decimal digits; an outcome is one of two alternatives.
-/
namespace SessionTrail

open Json

/-- The number of a job. -/
structure JobId where
  val : UInt64
deriving DecidableEq, Repr

/-- How a job ended. -/
inductive JobOutcome where
  | succeeded
  | failed (reason : Option String)
deriving DecidableEq, Repr

namespace JobId

def text (id : JobId) : String := decimalText id.val.toNat

def order (a b : JobId) : Ordering := compare a.val b.val

def encode (id : JobId) : Value := .ofUInt64 id.val

def decode : Decoder JobId := fun d => (decodeUInt64 d).map .mk

end JobId

namespace JobOutcome

def text : JobOutcome → String
  | .succeeded => "JobSucceeded"
  | .failed _ => "JobFailed"

/-- The alternatives by name. -/
def names : List String := ["succeeded", "failed"]

def failureShape : List Field := [.defaulted "reason" (decodeOption decodeString)]

/-- An outcome as a JSON value. A failure writes its reason even if there is none. -/
def encode : JobOutcome → Value
  | .succeeded => .string "succeeded"
  | .failed reason => .object [("failed", .object [("reason", .ofOption .string reason)])]

def decodeFailure (reading : Reading) : Decoder JobOutcome := fun d => do
  let fields ← decodeFields reading failureShape d
  return .failed (← fields.getD "reason" (decodeOption decodeString) none)

def decode (reading : Reading) : Decoder JobOutcome :=
  decodeVariant reading names fun name content =>
    if name = "succeeded" then (decodeNoContent reading content).map fun _ => .succeeded
    else decodeContent (decodeFailure reading) content

end JobOutcome

end SessionTrail

import SessionTrail.Remote

/-!
# Stages

A stage has a number and a name, and may be attempted several times. Whether an attempt has failed, and
why, is known to the engine only: the reason is a remote value, absent while there is no failure.
-/
namespace SessionTrail

open Json

/-- The number of a stage. -/
structure StageId where
  val : UInt64
deriving DecidableEq, Repr

namespace StageId

def text (id : StageId) : String := decimalText id.val.toNat

def order (a b : StageId) : Ordering := compare a.val b.val

def encode (id : StageId) : Value := .ofUInt64 id.val

def decode : Decoder StageId := fun d => (decodeUInt64 d).map .mk

end StageId

/-- One attempt at a stage. Its failure reason is held by the engine. -/
structure StageAttempt where
  stage : StageId
  attempt : UInt32
  name : String
  failureReason : Remote String
deriving DecidableEq, Repr

namespace StageAttempt

/-- An attempt that has not failed. -/
def new (stage : StageId) (attempt : UInt32) (name : String) : StageAttempt :=
  ⟨stage, attempt, name, .unset⟩

def attemptText (a : StageAttempt) : String := decimalText a.attempt.toNat

def shape (reading : Reading) : List Field :=
  [.required "stage_id" StageId.decode, .required "attempt_id" decodeUInt32,
    .required "name" decodeString, .defaulted "failure_reason" (Remote.decode reading decodeString)]

def encode (a : StageAttempt) : Value :=
  .object [("stage_id", a.stage.encode), ("attempt_id", .ofUInt32 a.attempt),
    ("name", .string a.name), ("failure_reason", a.failureReason.encode .string)]

def decode (reading : Reading) : Decoder StageAttempt := fun d => do
  let fields ← decodeFields reading (shape reading) d
  let stage ← fields.get "stage_id" StageId.decode
  let attempt ← fields.get "attempt_id" decodeUInt32
  let name ← fields.get "name" decodeString
  let reason ← fields.getD "failure_reason" (Remote.decode reading decodeString) .unset
  return ⟨stage, attempt, name, reason⟩

end StageAttempt

end SessionTrail

import SessionTrail.Breadcrumb
import SessionTrail.Proofs.Instants
import SessionTrail.Proofs.Records
import SessionTrail.Stage
import SessionTrail.Job

/-!
# Parts of events and reports

Identifiers, levels, outcomes and remote values are read as they were written, and so are attempts at
stages and all times but the leap seconds in the midst of a minute. An alternative is read alike in a text
and where it has been kept.
-/
namespace SessionTrail

open Json Doc

namespace Timestamp

theorem decode_encode (t : Timestamp) : decode (ofValue t.encode) = .ok t.reread := by
  rw [decode, encode, reads_string _]
  simp only [ok_bind, ofString?_text]
  rfl

theorem encode_reread (t : Timestamp) : t.reread.encode = t.encode := by
  rw [encode, encode, text_reread]

theorem isRegular_of_decode {d : Doc} {t : Timestamp} (h : decode d = .ok t) : t.IsRegular := by
  obtain ⟨s, -, h⟩ := bind_eq_ok.mp h
  split at h
  · rename_i hread
    cases h
    exact isRegular_of_ofString? hread
  · cases h

end Timestamp

theorem Uuid.reads : Reads Uuid.decode Uuid.encode := fun u => by
  rw [Uuid.decode, Uuid.encode, reads_string _]
  simp only [ok_bind, Uuid.ofString?_text]
  rfl

theorem JobId.reads : Reads JobId.decode JobId.encode := fun id => by
  rw [JobId.decode, JobId.encode, reads_UInt64 _]
  rfl

theorem StageId.reads : Reads StageId.decode StageId.encode := fun id => by
  rw [StageId.decode, StageId.encode, reads_UInt64 _]
  rfl

/-! ## Alternatives -/

namespace Json

variable {α : Type} {names : List String} {pick : String → Option Doc → Except DecodeError α}

theorem decodeVariant_name (reading : Reading) (name : String) :
    decodeVariant reading names pick (ofValue (.string name)) = decodeNamed names pick name none := by
  cases reading <;> rfl

theorem decodeVariant_content (reading : Reading) (name : String) (v : Value) :
    decodeVariant reading names pick (ofValue (.object [(name, v)])) =
      decodeNamed names pick name (some (ofValue v)) := by
  cases reading with
  | direct =>
    simp only [decodeVariant, ofValue, ofMembers, decodeVariantDirect]
    cases decodeNamed names pick name (some (ofValue v)) <;> rfl
  | stored => rfl
  | buffered => rfl

end Json

theorem Level.reads (reading : Reading) : Reads (Level.decode reading) Level.encode := fun level => by
  rw [Level.decode, Level.encode, decodeVariant_name]
  cases level <;> rfl

namespace Remote

variable {α : Type} {decodeValue : Decoder α} {encodeValue : α → Value}

theorem reads (h : Reads decodeValue encodeValue) (reading : Reading) :
    Reads (Remote.decode reading decodeValue) (Remote.encode encodeValue) := fun r => by
  cases r with
  | set value =>
    rw [Remote.decode, Remote.encode, decodeVariant_content]
    simp [decodeNamed, names, decodeContent, h value, ok_map]
  | unset =>
    rw [Remote.decode, Remote.encode, decodeVariant_name]
    simp [decodeNamed, names, decodeNoContent, ok_map]
  | unreachable reason =>
    rw [Remote.decode, Remote.encode, decodeVariant_content]
    simp [decodeNamed, names, decodeContent, reads_string _, ok_map]

end Remote

theorem JobOutcome.reads (reading : Reading) : Reads (JobOutcome.decode reading) JobOutcome.encode :=
  fun outcome => by
  cases outcome with
  | succeeded =>
    rw [JobOutcome.decode, JobOutcome.encode, decodeVariant_name]
    simp [decodeNamed, names, decodeNoContent, ok_map]
  | failed reason =>
    have hfields := decodeFields_ofValue failureShape [("reason", .ofOption .string reason)]
      (List.forall_mem_singleton.mpr ((reads_string.option nofun).takes rfl rfl reason))
      (by simp) (by simp [failureShape, Field.defaulted]) reading
    rw [JobOutcome.decode, JobOutcome.encode, decodeVariant_content]
    simp [decodeNamed, names, decodeContent, decodeFailure, hfields, Fields.ofMembers, Fields.getD,
      Fields.find?, reads_string.option nofun _, ok_bind, pure, Except.pure]

namespace StageAttempt

theorem reads (reading : Reading) : Reads (StageAttempt.decode reading) StageAttempt.encode := fun a => by
  have hfields := decodeFields_ofValue (shape reading)
    [("stage_id", a.stage.encode), ("attempt_id", .ofUInt32 a.attempt), ("name", .string a.name),
      ("failure_reason", a.failureReason.encode .string)]
    (by
      simp only [List.forall_mem_cons]
      exact ⟨StageId.reads.takes rfl rfl _, reads_UInt32.takes rfl rfl _, reads_string.takes rfl rfl _,
        (Remote.reads reads_string reading).takes rfl rfl _, nofun⟩)
    (by simp) (by simp [shape, Field.required, Field.defaulted]) reading
  rw [decode, encode, hfields, ok_bind, StageId.reads.get (a := a.stage) rfl, ok_bind,
    reads_UInt32.get (a := a.attempt) rfl, ok_bind, reads_string.get (a := a.name) rfl, ok_bind,
    (Remote.reads reads_string reading).getD (a := a.failureReason) rfl, ok_bind]
  rfl

end StageAttempt

end SessionTrail

import SessionTrail.Event
import SessionTrail.Timestamp.Read

/-!
# Events as JSON

An event is an object that starts with its tag under `type`, followed by the fields of its kind in
order. It is read with its members in any order, or as an array of the tag and the fields. The body
is kept until the tag is known, so a text that is no JSON anywhere is refused for that first.
-/
namespace SessionTrail.Event

open Json

/-- Any JSON value, as a set of members. -/
def decodePayload : Decoder CanonicalValue := fun d => .ok (.of d.toValue)

def decodeStages : Decoder (List StageId) := decodeList StageId.decode

def decodeAttempt : Decoder StageAttempt := StageAttempt.decode .buffered

/-- The fields of each kind, in order. -/
def shape : EventKind → List Field
  | .applicationStart =>
    [.required "app_name" decodeString, .nullable "app_id" decodeString,
      .required "time" Timestamp.decode, .required "spark_user" decodeString]
  | .applicationEnd => [.required "time" Timestamp.decode]
  | .blockManagerAdded =>
    [.required "executor_id" decodeString, .required "host" decodeString,
      .required "port" decodeUInt16, .required "max_mem" decodeUInt64]
  | .blockManagerRemoved =>
    [.required "executor_id" decodeString, .required "host" decodeString]
  | .blockUpdated =>
    [.required "block_id" decodeString, .required "executor_id" decodeString,
      .required "mem_size" decodeUInt64, .required "disk_size" decodeUInt64]
  | .environmentUpdate => [.required "properties" (decodeMap decodeString)]
  | .executorAdded =>
    [.required "executor_id" decodeString, .required "host" decodeString,
      .required "total_cores" decodeUInt32]
  | .executorRemoved => [.required "executor_id" decodeString, .required "reason" decodeString]
  | .executorBlacklisted =>
    [.required "executor_id" decodeString, .required "task_failures" decodeUInt32]
  | .executorBlacklistedForStage =>
    [.required "executor_id" decodeString, .required "task_failures" decodeUInt32,
      .required "stage_id" StageId.decode, .required "stage_attempt_id" decodeUInt32]
  | .executorMetricsUpdate => [.required "executor_id" decodeString]
  | .jobStart =>
    [.required "job_id" JobId.decode, .required "time" Timestamp.decode,
      .required "stage_ids" decodeStages]
  | .jobEnd =>
    [.required "job_id" JobId.decode, .required "time" Timestamp.decode,
      .required "job_result" (JobOutcome.decode .buffered)]
  | .nodeBlacklisted => [.required "host" decodeString, .required "executor_failures" decodeUInt32]
  | .nodeBlacklistedForStage =>
    [.required "host" decodeString, .required "executor_failures" decodeUInt32,
      .required "stage_id" StageId.decode, .required "stage_attempt_id" decodeUInt32]
  | .nodeUnblacklisted => [.required "host" decodeString]
  | .other => [.required "kind" decodeString, .defaulted "payload" decodePayload]
  | .speculativeTaskSubmitted =>
    [.required "stage_id" StageId.decode, .required "stage_attempt_id" decodeUInt32]
  | .stageSubmitted => [.required "stage_info" decodeAttempt]
  | .stageCompleted => [.required "stage_info" decodeAttempt]
  | .taskStart =>
    [.required "stage_id" StageId.decode, .required "stage_attempt_id" decodeUInt32,
      .required "task_id" decodeUInt64]
  | .taskGettingResult => [.required "task_id" decodeUInt64]
  | .taskEnd =>
    [.required "stage_id" StageId.decode, .required "stage_attempt_id" decodeUInt32,
      .required "task_id" decodeUInt64, .required "reason" decodeString]
  | .unpersistDataset => [.required "rdd_id" decodeUInt64]

/-- The event of a kind with the given fields. -/
def ofFields (fields : Fields) : EventKind → Except DecodeError Event
  | .applicationStart => do
    let appName ← fields.get "app_name" decodeString
    let appId ← fields.getD "app_id" (decodeOption decodeString) none
    let time ← fields.get "time" Timestamp.decode
    let user ← fields.get "spark_user" decodeString
    return .applicationStart appName appId time user
  | .applicationEnd => do
    let time ← fields.get "time" Timestamp.decode
    return .applicationEnd time
  | .blockManagerAdded => do
    let executor ← fields.get "executor_id" decodeString
    let host ← fields.get "host" decodeString
    let port ← fields.get "port" decodeUInt16
    let maxMemory ← fields.get "max_mem" decodeUInt64
    return .blockManagerAdded executor host port maxMemory
  | .blockManagerRemoved => do
    let executor ← fields.get "executor_id" decodeString
    let host ← fields.get "host" decodeString
    return .blockManagerRemoved executor host
  | .blockUpdated => do
    let block ← fields.get "block_id" decodeString
    let executor ← fields.get "executor_id" decodeString
    let memorySize ← fields.get "mem_size" decodeUInt64
    let diskSize ← fields.get "disk_size" decodeUInt64
    return .blockUpdated block executor memorySize diskSize
  | .environmentUpdate => do
    let properties ← fields.get "properties" (decodeMap decodeString)
    return .environmentUpdate properties
  | .executorAdded => do
    let executor ← fields.get "executor_id" decodeString
    let host ← fields.get "host" decodeString
    let totalCores ← fields.get "total_cores" decodeUInt32
    return .executorAdded executor host totalCores
  | .executorRemoved => do
    let executor ← fields.get "executor_id" decodeString
    let reason ← fields.get "reason" decodeString
    return .executorRemoved executor reason
  | .executorBlacklisted => do
    let executor ← fields.get "executor_id" decodeString
    let taskFailures ← fields.get "task_failures" decodeUInt32
    return .executorBlacklisted executor taskFailures
  | .executorBlacklistedForStage => do
    let executor ← fields.get "executor_id" decodeString
    let taskFailures ← fields.get "task_failures" decodeUInt32
    let stage ← fields.get "stage_id" StageId.decode
    let attempt ← fields.get "stage_attempt_id" decodeUInt32
    return .executorBlacklistedForStage executor taskFailures stage attempt
  | .executorMetricsUpdate => do
    let executor ← fields.get "executor_id" decodeString
    return .executorMetricsUpdate executor
  | .jobStart => do
    let job ← fields.get "job_id" JobId.decode
    let time ← fields.get "time" Timestamp.decode
    let stages ← fields.get "stage_ids" decodeStages
    return .jobStart job time stages
  | .jobEnd => do
    let job ← fields.get "job_id" JobId.decode
    let time ← fields.get "time" Timestamp.decode
    let outcome ← fields.get "job_result" (JobOutcome.decode .buffered)
    return .jobEnd job time outcome
  | .nodeBlacklisted => do
    let host ← fields.get "host" decodeString
    let executorFailures ← fields.get "executor_failures" decodeUInt32
    return .nodeBlacklisted host executorFailures
  | .nodeBlacklistedForStage => do
    let host ← fields.get "host" decodeString
    let executorFailures ← fields.get "executor_failures" decodeUInt32
    let stage ← fields.get "stage_id" StageId.decode
    let attempt ← fields.get "stage_attempt_id" decodeUInt32
    return .nodeBlacklistedForStage host executorFailures stage attempt
  | .nodeUnblacklisted => do
    let host ← fields.get "host" decodeString
    return .nodeUnblacklisted host
  | .other => do
    let kind ← fields.get "kind" decodeString
    let payload ← fields.getD "payload" decodePayload (.of .null)
    return .other kind payload
  | .speculativeTaskSubmitted => do
    let stage ← fields.get "stage_id" StageId.decode
    let attempt ← fields.get "stage_attempt_id" decodeUInt32
    return .speculativeTaskSubmitted stage attempt
  | .stageSubmitted => do
    let attempt ← fields.get "stage_info" decodeAttempt
    return .stageSubmitted attempt
  | .stageCompleted => do
    let attempt ← fields.get "stage_info" decodeAttempt
    return .stageCompleted attempt
  | .taskStart => do
    let stage ← fields.get "stage_id" StageId.decode
    let attempt ← fields.get "stage_attempt_id" decodeUInt32
    let task ← fields.get "task_id" decodeUInt64
    return .taskStart stage attempt task
  | .taskGettingResult => do
    let task ← fields.get "task_id" decodeUInt64
    return .taskGettingResult task
  | .taskEnd => do
    let stage ← fields.get "stage_id" StageId.decode
    let attempt ← fields.get "stage_attempt_id" decodeUInt32
    let task ← fields.get "task_id" decodeUInt64
    let reason ← fields.get "reason" decodeString
    return .taskEnd stage attempt task reason
  | .unpersistDataset => do
    let dataset ← fields.get "rdd_id" decodeUInt64
    return .unpersistDataset dataset

/-- The fields of an event as members, in order. -/
def members : Event → List (String × Value)
  | .applicationStart appName appId time user =>
    [("app_name", .string appName), ("app_id", .ofOption .string appId), ("time", time.encode),
      ("spark_user", .string user)]
  | .applicationEnd time => [("time", time.encode)]
  | .blockManagerAdded executor host port maxMemory =>
    [("executor_id", .string executor), ("host", .string host), ("port", .ofUInt16 port),
      ("max_mem", .ofUInt64 maxMemory)]
  | .blockManagerRemoved executor host =>
    [("executor_id", .string executor), ("host", .string host)]
  | .blockUpdated block executor memorySize diskSize =>
    [("block_id", .string block), ("executor_id", .string executor),
      ("mem_size", .ofUInt64 memorySize), ("disk_size", .ofUInt64 diskSize)]
  | .environmentUpdate properties => [("properties", .ofMap .string properties)]
  | .executorAdded executor host totalCores =>
    [("executor_id", .string executor), ("host", .string host),
      ("total_cores", .ofUInt32 totalCores)]
  | .executorRemoved executor reason =>
    [("executor_id", .string executor), ("reason", .string reason)]
  | .executorBlacklisted executor taskFailures =>
    [("executor_id", .string executor), ("task_failures", .ofUInt32 taskFailures)]
  | .executorBlacklistedForStage executor taskFailures stage attempt =>
    [("executor_id", .string executor), ("task_failures", .ofUInt32 taskFailures),
      ("stage_id", stage.encode), ("stage_attempt_id", .ofUInt32 attempt)]
  | .executorMetricsUpdate executor => [("executor_id", .string executor)]
  | .jobStart job time stages =>
    [("job_id", job.encode), ("time", time.encode), ("stage_ids", .ofList StageId.encode stages)]
  | .jobEnd job time outcome =>
    [("job_id", job.encode), ("time", time.encode), ("job_result", outcome.encode)]
  | .nodeBlacklisted host executorFailures =>
    [("host", .string host), ("executor_failures", .ofUInt32 executorFailures)]
  | .nodeBlacklistedForStage host executorFailures stage attempt =>
    [("host", .string host), ("executor_failures", .ofUInt32 executorFailures),
      ("stage_id", stage.encode), ("stage_attempt_id", .ofUInt32 attempt)]
  | .nodeUnblacklisted host => [("host", .string host)]
  | .other kind payload => [("kind", .string kind), ("payload", payload.value)]
  | .speculativeTaskSubmitted stage attempt =>
    [("stage_id", stage.encode), ("stage_attempt_id", .ofUInt32 attempt)]
  | .stageSubmitted attempt => [("stage_info", attempt.encode)]
  | .stageCompleted attempt => [("stage_info", attempt.encode)]
  | .taskStart stage attempt task =>
    [("stage_id", stage.encode), ("stage_attempt_id", .ofUInt32 attempt), ("task_id", .ofUInt64 task)]
  | .taskGettingResult task => [("task_id", .ofUInt64 task)]
  | .taskEnd stage attempt task reason =>
    [("stage_id", stage.encode), ("stage_attempt_id", .ofUInt32 attempt),
      ("task_id", .ofUInt64 task), ("reason", .string reason)]
  | .unpersistDataset dataset => [("rdd_id", .ofUInt64 dataset)]

def encode (e : Event) : Value := .object (("type", .string e.kind.tag) :: e.members)

def decode : Decoder Event := fun d => do
  let (tag, body) ← decodeTagged "type" (EventKind.all.map EventKind.tag) d
  match EventKind.ofTag? tag with
  | some kind => ofFields (← decodeFields .buffered (shape kind) body) kind
  | none => throw (.mismatch (.unknownVariant tag (EventKind.all.map EventKind.tag)))

end SessionTrail.Event

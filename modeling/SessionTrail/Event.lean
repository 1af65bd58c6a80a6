import SessionTrail.Job
import SessionTrail.Stage
import SessionTrail.Timestamp

/-!
# Engine events

What an engine tells its listeners: applications, jobs, stages and tasks that start and end, executors,
nodes and blocks that come and go. Each event is of one of 24 kinds. Most of them only name what
happened; the trail acts on jobs and stages.
-/
namespace SessionTrail

open Json

inductive EventKind where
  | applicationStart
  | applicationEnd
  | blockManagerAdded
  | blockManagerRemoved
  | blockUpdated
  | environmentUpdate
  | executorAdded
  | executorRemoved
  | executorBlacklisted
  | executorBlacklistedForStage
  | executorMetricsUpdate
  | jobStart
  | jobEnd
  | nodeBlacklisted
  | nodeBlacklistedForStage
  | nodeUnblacklisted
  | other
  | speculativeTaskSubmitted
  | stageSubmitted
  | stageCompleted
  | taskStart
  | taskGettingResult
  | taskEnd
  | unpersistDataset
deriving DecidableEq, Repr

namespace EventKind

/-- All kinds, in their fixed order. -/
def all : List EventKind :=
  [.applicationStart, .applicationEnd, .blockManagerAdded, .blockManagerRemoved, .blockUpdated,
    .environmentUpdate, .executorAdded, .executorRemoved, .executorBlacklisted,
    .executorBlacklistedForStage, .executorMetricsUpdate, .jobStart, .jobEnd, .nodeBlacklisted,
    .nodeBlacklistedForStage, .nodeUnblacklisted, .other, .speculativeTaskSubmitted,
    .stageSubmitted, .stageCompleted, .taskStart, .taskGettingResult, .taskEnd, .unpersistDataset]

/-- The tag of a kind in JSON. -/
def tag : EventKind → String
  | .applicationStart => "application_start"
  | .applicationEnd => "application_end"
  | .blockManagerAdded => "block_manager_added"
  | .blockManagerRemoved => "block_manager_removed"
  | .blockUpdated => "block_updated"
  | .environmentUpdate => "environment_update"
  | .executorAdded => "executor_added"
  | .executorRemoved => "executor_removed"
  | .executorBlacklisted => "executor_blacklisted"
  | .executorBlacklistedForStage => "executor_blacklisted_for_stage"
  | .executorMetricsUpdate => "executor_metrics_update"
  | .jobStart => "job_start"
  | .jobEnd => "job_end"
  | .nodeBlacklisted => "node_blacklisted"
  | .nodeBlacklistedForStage => "node_blacklisted_for_stage"
  | .nodeUnblacklisted => "node_unblacklisted"
  | .other => "other"
  | .speculativeTaskSubmitted => "speculative_task_submitted"
  | .stageSubmitted => "stage_submitted"
  | .stageCompleted => "stage_completed"
  | .taskStart => "task_start"
  | .taskGettingResult => "task_getting_result"
  | .taskEnd => "task_end"
  | .unpersistDataset => "unpersist_rdd"

/-- The kind with a tag. -/
def ofTag? (tag : String) : Option EventKind := all.find? (·.tag = tag)

/-- The subject of a kind and what happens to it. -/
def topic : EventKind → String
  | .applicationStart => "application.start"
  | .applicationEnd => "application.end"
  | .blockManagerAdded => "block_manager.added"
  | .blockManagerRemoved => "block_manager.removed"
  | .blockUpdated => "block.updated"
  | .environmentUpdate => "environment.update"
  | .executorAdded => "executor.added"
  | .executorRemoved => "executor.removed"
  | .executorBlacklisted => "executor.blacklisted"
  | .executorBlacklistedForStage => "executor.blacklisted_for_stage"
  | .executorMetricsUpdate => "executor.metrics_update"
  | .jobStart => "job.start"
  | .jobEnd => "job.end"
  | .nodeBlacklisted => "node.blacklisted"
  | .nodeBlacklistedForStage => "node.blacklisted_for_stage"
  | .nodeUnblacklisted => "node.unblacklisted"
  | .other => "other"
  | .speculativeTaskSubmitted => "task.speculative_submitted"
  | .stageSubmitted => "stage.submitted"
  | .stageCompleted => "stage.completed"
  | .taskStart => "task.start"
  | .taskGettingResult => "task.getting_result"
  | .taskEnd => "task.end"
  | .unpersistDataset => "rdd.unpersist"

/-- The name of the callback that takes events of a kind. -/
def callback : EventKind → String
  | .other => "on_other_event"
  | kind => "on_" ++ kind.tag

/-- The kind whose events a callback takes. -/
def ofCallback? (name : String) : Option EventKind := all.find? (·.callback = name)

theorem mem_all (kind : EventKind) : kind ∈ all := by cases kind <;> decide

/-- A kind is found by its tag, so two kinds have different tags. -/
theorem ofTag?_tag (kind : EventKind) : ofTag? kind.tag = some kind := by cases kind <;> rfl

end EventKind

inductive Event where
  | applicationStart (appName : String) (appId : Option String) (time : Timestamp) (user : String)
  | applicationEnd (time : Timestamp)
  | blockManagerAdded (executor host : String) (port : UInt16) (maxMemory : UInt64)
  | blockManagerRemoved (executor host : String)
  | blockUpdated (block executor : String) (memorySize diskSize : UInt64)
  | environmentUpdate (properties : SortedMap String)
  | executorAdded (executor host : String) (totalCores : UInt32)
  | executorRemoved (executor reason : String)
  | executorBlacklisted (executor : String) (taskFailures : UInt32)
  | executorBlacklistedForStage (executor : String) (taskFailures : UInt32) (stage : StageId)
      (attempt : UInt32)
  | executorMetricsUpdate (executor : String)
  | jobStart (job : JobId) (time : Timestamp) (stages : List StageId)
  | jobEnd (job : JobId) (time : Timestamp) (outcome : JobOutcome)
  | nodeBlacklisted (host : String) (executorFailures : UInt32)
  | nodeBlacklistedForStage (host : String) (executorFailures : UInt32) (stage : StageId)
      (attempt : UInt32)
  | nodeUnblacklisted (host : String)
  | other (kind : String) (payload : CanonicalValue)
  | speculativeTaskSubmitted (stage : StageId) (attempt : UInt32)
  | stageSubmitted (attempt : StageAttempt)
  | stageCompleted (attempt : StageAttempt)
  | taskStart (stage : StageId) (attempt : UInt32) (task : UInt64)
  | taskGettingResult (task : UInt64)
  | taskEnd (stage : StageId) (attempt : UInt32) (task : UInt64) (reason : String)
  | unpersistDataset (dataset : UInt64)
deriving DecidableEq, Repr

def Event.kind : Event → EventKind
  | .applicationStart .. => .applicationStart
  | .applicationEnd .. => .applicationEnd
  | .blockManagerAdded .. => .blockManagerAdded
  | .blockManagerRemoved .. => .blockManagerRemoved
  | .blockUpdated .. => .blockUpdated
  | .environmentUpdate .. => .environmentUpdate
  | .executorAdded .. => .executorAdded
  | .executorRemoved .. => .executorRemoved
  | .executorBlacklisted .. => .executorBlacklisted
  | .executorBlacklistedForStage .. => .executorBlacklistedForStage
  | .executorMetricsUpdate .. => .executorMetricsUpdate
  | .jobStart .. => .jobStart
  | .jobEnd .. => .jobEnd
  | .nodeBlacklisted .. => .nodeBlacklisted
  | .nodeBlacklistedForStage .. => .nodeBlacklistedForStage
  | .nodeUnblacklisted .. => .nodeUnblacklisted
  | .other .. => .other
  | .speculativeTaskSubmitted .. => .speculativeTaskSubmitted
  | .stageSubmitted .. => .stageSubmitted
  | .stageCompleted .. => .stageCompleted
  | .taskStart .. => .taskStart
  | .taskGettingResult .. => .taskGettingResult
  | .taskEnd .. => .taskEnd
  | .unpersistDataset .. => .unpersistDataset

end SessionTrail

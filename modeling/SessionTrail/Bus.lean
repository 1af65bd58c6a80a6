import SessionTrail.Table

/-!
# Buses

A bus hands every message to all who subscribe to it. Each subscription has its own queue: messages
stand in it in the order of publication until they are received. A closed bus detaches its
subscriptions but leaves them what is queued, and it takes new subscriptions. A subscription that was
dropped is noticed by the next publication.
-/
namespace SessionTrail

structure SubscriptionId where
  val : Nat
deriving DecidableEq, Repr

/-- A bus with the subscriptions to it. -/
structure Bus (μ : Type) where
  /-- The queues of the subscriptions that have not been dropped. -/
  queues : Table SubscriptionId (List μ) := {}
  /-- The subscriptions that are served, in order. -/
  attached : List SubscriptionId := []
  /-- The number of subscriptions that were ever made. -/
  made : Nat := 0
deriving DecidableEq, Repr

/-- What a subscriber finds: a message, nothing yet, or nothing any more. -/
inductive Received (μ : Type) where
  | message (m : μ)
  | idle
  | closed
deriving DecidableEq, Repr

namespace Bus

variable {μ : Type}

def empty : Bus μ := {}

instance : Inhabited (Bus μ) := ⟨empty⟩

/-- The messages that wait for a subscription. -/
def queue (b : Bus μ) (id : SubscriptionId) : List μ := (b.queues.get? id).getD []

/-- Whether a subscription has not been dropped. -/
def isLive (b : Bus μ) (id : SubscriptionId) : Bool := b.queues.contains id

/-- The number of subscriptions that are served, as far as the bus knows. -/
def count (b : Bus μ) : Nat := b.attached.length

/-- A new subscription with an empty queue. -/
def subscribe (b : Bus μ) : SubscriptionId × Bus μ :=
  let id : SubscriptionId := ⟨b.made⟩
  (id, ⟨b.queues.set id [], b.attached ++ [id], b.made + 1⟩)

/-- Drop a subscription with its queue. -/
def drop (b : Bus μ) (id : SubscriptionId) : Bus μ := { b with queues := b.queues.erase id }

/-- Append a message to the queue of a subscription. -/
def push (m : μ) (queues : Table SubscriptionId (List μ)) (id : SubscriptionId) :
    Table SubscriptionId (List μ) :=
  queues.modify id (· ++ [m])

/-- Hand a message to all subscriptions that are served and not dropped; how many that are. -/
def publish (b : Bus μ) (m : μ) : Nat × Bus μ :=
  let live := b.attached.filter b.isLive
  (live.length, { b with queues := live.foldl (push m) b.queues, attached := live })

/-- Serve no subscription any more. -/
def close (b : Bus μ) : Bus μ := { b with attached := [] }

/-- Take what is at the front of a queue. -/
def receive (b : Bus μ) (id : SubscriptionId) : Received μ × Bus μ :=
  match b.queue id with
  | m :: rest => (.message m, { b with queues := b.queues.set id rest })
  | [] => (if id ∈ b.attached then .idle else .closed, b)

/-- The next message, if one is queued. -/
def next? (b : Bus μ) (id : SubscriptionId) : Option μ × Bus μ :=
  match b.receive id with
  | (.message m, b) => (some m, b)
  | (_, b) => (none, b)

/-- Wait for the next message: none where the wait would not end, else the message or, where none can
come any more, nothing. -/
def await (b : Bus μ) (id : SubscriptionId) : Option (Option μ × Bus μ) :=
  match b.receive id with
  | (.message m, b) => some (some m, b)
  | (.closed, b) => some (none, b)
  | (.idle, _) => none

/-- Take the first `n` of the messages that are queued. -/
def take (b : Bus μ) (id : SubscriptionId) (n : Nat) : List μ × Bus μ :=
  ((b.queue id).take n, { b with queues := b.queues.modify id (·.drop n) })

/-- Take all messages that are queued. -/
def drain (b : Bus μ) (id : SubscriptionId) : List μ × Bus μ :=
  (b.queue id, { b with queues := b.queues.modify id fun _ => [] })

/-! ## Queues -/

theorem queue_of_get? {b : Bus μ} {id : SubscriptionId} {q : List μ} (h : b.queues.get? id = some q) :
    b.queue id = q := by rw [queue, h, Option.getD_some]

theorem isLive_eq_isSome (b : Bus μ) (id : SubscriptionId) :
    b.isLive id = (b.queues.get? id).isSome := rfl

theorem get?_of_isLive {b : Bus μ} {id : SubscriptionId} (h : b.isLive id = true) :
    b.queues.get? id = some (b.queue id) := by
  obtain ⟨q, hq⟩ := Option.isSome_iff_exists.mp h
  rw [queue_of_get? hq, hq]

/-- A message is appended once to the queue of each of some subscriptions. -/
theorem get?_foldl_push (m : μ) (ids : List SubscriptionId) (queues : Table SubscriptionId (List μ))
    (hn : ids.Nodup) (id : SubscriptionId) :
    (ids.foldl (push m) queues).get? id =
      (queues.get? id).map fun q => if id ∈ ids then q ++ [m] else q := by
  induction ids generalizing queues with
  | nil =>
    simp only [List.foldl_nil, List.not_mem_nil, if_false]
    cases queues.get? id <;> rfl
  | cons first rest ih =>
    obtain ⟨hf, hr⟩ := List.nodup_cons.mp hn
    rw [List.foldl_cons, ih _ hr, push, Table.get?_modify]
    by_cases hs : id = first
    · rw [if_pos hs, Option.map_map]
      simp only [Function.comp_def, hs, hf, if_false, List.mem_cons_self, if_true]
    · simp only [hs, if_false, List.mem_cons, false_or]

theorem get?_publish (b : Bus μ) (hn : b.attached.Nodup) (m : μ) (id : SubscriptionId) :
    (b.publish m).2.queues.get? id =
      (b.queues.get? id).map fun q => if id ∈ b.attached then q ++ [m] else q := by
  simp only [publish, get?_foldl_push m _ b.queues (List.Pairwise.filter _ hn) id, List.mem_filter]
  cases hq : b.queues.get? id with
  | none => rfl
  | some q =>
    have hl : b.isLive id = true := by rw [isLive_eq_isSome, hq]; rfl
    simp only [hl, and_true]

end Bus

end SessionTrail

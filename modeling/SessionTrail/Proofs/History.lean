import Mathlib.Data.List.DropRight
import SessionTrail.Bus

/-!
# Histories of a bus

Operations on a bus are written down with their answers, and a history is a list of these. It tells which
subscriptions were made and dropped, what each of them has received, and what it was due: the messages that
were published behind its beginning, up to the first close or until it was dropped (`History.window`). Each
of these is told for a history that grows by one operation.
-/
namespace SessionTrail.Bus

variable {μ : Type}

/-- What can be done with a bus in one go. -/
inductive Operation (μ : Type) where
  | subscribe
  | drop (id : SubscriptionId)
  | publish (m : μ)
  | close
  | next (id : SubscriptionId)
  | await (id : SubscriptionId)
  | poll (id : SubscriptionId)
  | take (id : SubscriptionId) (n : Nat)
  | drain (id : SubscriptionId)

/-- What an operation answers. -/
inductive Answer (μ : Type) where
  | subscribed (id : SubscriptionId)
  | served (n : Nat)
  | next (m : Option μ)
  | polled (r : Received μ)
  | all (ms : List μ)
  | done

/-- The messages that an answer hands over. -/
def Answer.messages : Answer μ → List μ
  | .next m => m.toList
  | .polled (.message m) => [m]
  | .all ms => ms
  | .polled .idle | .polled .closed | .subscribed _ | .served _ | .done => []

namespace Operation

/-- The subscription for which an operation receives. -/
def receiver? : Operation μ → Option SubscriptionId
  | .next id | .await id | .poll id | .take id _ | .drain id => some id
  | .subscribe | .drop _ | .publish _ | .close => none

/-- The subscription that an operation needs. -/
def uses? : Operation μ → Option SubscriptionId
  | .drop id => some id
  | o => o.receiver?

/-- What an operation answers and leaves. It does not happen if it needs a subscription that is not
there or would have to wait without end. -/
def run (b : Bus μ) : Operation μ → Option (Answer μ × Bus μ)
  | .subscribe => some (.subscribed b.subscribe.1, b.subscribe.2)
  | .drop id => if b.isLive id then some (.done, b.drop id) else none
  | .publish m => some (.served (b.publish m).1, (b.publish m).2)
  | .close => some (.done, b.close)
  | .next id => if b.isLive id then some (.next (b.next? id).1, (b.next? id).2) else none
  | .await id =>
    if b.isLive id then (b.await id).map fun reply => (.next reply.1, reply.2) else none
  | .poll id => if b.isLive id then some (.polled (b.receive id).1, (b.receive id).2) else none
  | .take id n => if b.isLive id then some (.all (b.take id n).1, (b.take id n).2) else none
  | .drain id => if b.isLive id then some (.all (b.drain id).1, (b.drain id).2) else none

end Operation

/-- An operation that has happened, with its answer. -/
structure Entry (μ : Type) where
  operation : Operation μ
  answer : Answer μ

/-- The history of some operations, and the bus behind them. -/
def perform : List (Operation μ) → Bus μ → List (Entry μ) × Bus μ
  | [], b => ([], b)
  | o :: rest, b =>
    match o.run b with
    | some (a, b) => (⟨o, a⟩ :: (perform rest b).1, (perform rest b).2)
    | none => perform rest b

/-! ## What a history tells -/

namespace Entry

def subscribed? (e : Entry μ) : Option SubscriptionId :=
  match e.operation, e.answer with
  | .subscribe, .subscribed id => some id
  | _, _ => none

def dropped? (e : Entry μ) : Option SubscriptionId :=
  match e.operation with
  | .drop id => some id
  | _ => none

def published? (e : Entry μ) : Option μ :=
  match e.operation with
  | .publish m => some m
  | _ => none

def isClose (e : Entry μ) : Bool :=
  match e.operation with
  | .close => true
  | _ => false

/-- Whether a subscription gets nothing that is published later. -/
def ends (id : SubscriptionId) (e : Entry μ) : Bool := e.isClose || e.dropped? = some id

/-- The messages that a subscription receives. -/
def received (id : SubscriptionId) (e : Entry μ) : List μ :=
  if e.operation.receiver? = some id then e.answer.messages else []

end Entry

/-- Operations that have happened, one after another. -/
abbrev History (μ : Type) := List (Entry μ)

namespace History

/-- The subscriptions that were made. -/
def subscribed (h : History μ) : List SubscriptionId := h.filterMap Entry.subscribed?

/-- The subscriptions that were dropped. -/
def dropped (h : History μ) : List SubscriptionId := h.filterMap Entry.dropped?

/-- The messages that were published. -/
def published (h : History μ) : List μ := h.filterMap Entry.published?

/-- The messages that a subscription has received. -/
def received (id : SubscriptionId) (h : History μ) : List μ := h.flatMap (Entry.received id)

/-- The subscriptions that were made since the bus was last closed. -/
def subscribedSinceClose (h : History μ) : List SubscriptionId := subscribed (h.rtakeWhile fun e => !e.isClose)

/-- The subscriptions that had been dropped when a message was last published. -/
def droppedAtPublish (h : History μ) : List SubscriptionId :=
  dropped (h.rdropWhile fun e => e.published?.isNone)

/-- A history from the beginning of a subscription on. -/
def since (id : SubscriptionId) (h : History μ) : History μ := h.dropWhile fun e => e.subscribed? != some id

/-- The messages that were published behind the beginning of a subscription, before the first close
after that and before it was dropped. -/
def window (id : SubscriptionId) (h : History μ) : List μ :=
  published ((since id h).takeWhile fun e => !e.ends id)

section

variable (h : History μ) (e : Entry μ) (id : SubscriptionId)

theorem subscribed_concat : subscribed (h ++ [e]) = subscribed h ++ e.subscribed?.toList := by
  simp only [subscribed, List.filterMap_append, List.filterMap_cons, List.filterMap_nil]
  cases e.subscribed? <;> rfl

theorem dropped_concat : dropped (h ++ [e]) = dropped h ++ e.dropped?.toList := by
  simp only [dropped, List.filterMap_append, List.filterMap_cons, List.filterMap_nil]
  cases e.dropped? <;> rfl

theorem published_concat : published (h ++ [e]) = published h ++ e.published?.toList := by
  simp only [published, List.filterMap_append, List.filterMap_cons, List.filterMap_nil]
  cases e.published? <;> rfl

theorem received_concat : received id (h ++ [e]) = received id h ++ e.received id := by
  simp only [received, List.flatMap_append, List.flatMap_cons, List.flatMap_nil, List.append_nil]

theorem subscribedSinceClose_concat : subscribedSinceClose (h ++ [e]) =
    if e.isClose then [] else subscribedSinceClose h ++ e.subscribed?.toList := by
  rw [subscribedSinceClose, List.rtakeWhile_concat]
  cases e.isClose with
  | true => rfl
  | false => exact subscribed_concat _ _

theorem droppedAtPublish_concat : droppedAtPublish (h ++ [e]) =
    if e.published?.isNone then droppedAtPublish h else dropped h ++ e.dropped?.toList := by
  rw [droppedAtPublish, List.rdropWhile_concat]
  split
  · rfl
  · exact dropped_concat _ _

/-- Where a subscription has begun, its part of the history grows with the history. -/
theorem since_append_of_subscribed (hm : id ∈ subscribed h) (t : History μ) :
    since id (h ++ t) = since id h ++ t := by
  obtain ⟨f, hf, hi⟩ := List.mem_filterMap.mp hm
  have hne : (since id h).isEmpty = false := by
    simp only [since, List.isEmpty_eq_false_iff, ne_eq, List.dropWhile_eq_nil_iff, not_forall]
    exact ⟨f, hf, by simp [hi]⟩
  rw [since, List.dropWhile_append]
  simp only [since] at hne
  rw [hne]
  rfl

theorem since_concat_of_not_subscribed (hm : id ∉ subscribed h) :
    since id (h ++ [e]) = if e.subscribed? = some id then [e] else [] := by
  have hnil : since id h = [] := by
    simp only [since, List.dropWhile_eq_nil_iff, bne_iff_ne]
    exact fun f hf hi => hm (List.mem_filterMap.mpr ⟨f, hf, hi⟩)
  rw [since, List.dropWhile_append]
  simp only [since] at hnil
  rw [hnil]
  by_cases hi : e.subscribed? = some id <;> simp [hi]

theorem window_concat_of_open (hm : id ∈ subscribed h) (ho : ∀ f ∈ since id h, f.ends id = false) :
    window id (h ++ [e]) = window id h ++ if e.ends id then [] else e.published?.toList := by
  have hall : (since id h).takeWhile (fun f => !f.ends id) = since id h :=
    List.takeWhile_eq_self_iff.mpr fun f hf => by rw [ho f hf]; rfl
  rw [window, window, since_append_of_subscribed h id hm [e], List.takeWhile_append, hall, if_pos rfl]
  have hone : published [e] = e.published?.toList := published_concat [] e
  cases he : e.ends id with
  | true => simp [he]
  | false =>
    simp only [List.takeWhile_cons, he, Bool.not_false, if_true, List.takeWhile_nil,
      Bool.false_eq_true, if_false]
    rw [← hone]
    exact List.filterMap_append ..

theorem window_append_of_ended (hm : id ∈ subscribed h) (ho : ∃ f ∈ since id h, f.ends id = true)
    (t : History μ) : window id (h ++ t) = window id h := by
  have hlt : ((since id h).takeWhile fun f => !f.ends id).length ≠ (since id h).length := fun hl => by
    obtain ⟨f, hf, he⟩ := ho
    have hall := (List.takeWhile_prefix _).eq_of_length hl
    have := List.takeWhile_eq_self_iff.mp hall f hf
    simp [he] at this
  rw [window, window, since_append_of_subscribed h id hm t, List.takeWhile_append, if_neg hlt]

end

end History

end SessionTrail.Bus

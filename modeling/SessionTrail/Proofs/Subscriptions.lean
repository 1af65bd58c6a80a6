import Mathlib.Data.List.Nodup
import SessionTrail.Proofs.History

/-!
# What subscriptions receive

The lists by which a bus serves its subscriptions, and what it answers, agree with the history at every
moment (`Agrees`): what a subscription has received and what still waits for it are the messages that it
was due.
-/
namespace SessionTrail.Bus

variable {μ : Type}

/-! ## Queues -/

/-- Some messages are taken from the front of a queue, and nothing else changes. -/
structure Takes (b : Bus μ) (id : SubscriptionId) (ms : List μ) (c : Bus μ) : Prop where
  attached_eq : c.attached = b.attached
  made_eq : c.made = b.made
  others : ∀ other ≠ id, c.queues.get? other = b.queues.get? other
  live : c.isLive id = true
  queue_eq : b.queue id = ms ++ c.queue id

namespace Takes

variable {b c : Bus μ} {id : SubscriptionId} {ms : List μ}

theorem nothing (h : b.isLive id = true) : b.Takes id [] b := ⟨rfl, rfl, fun _ _ => rfl, h, rfl⟩

theorem of_queues {rest : List μ} {queues : Table SubscriptionId (List μ)}
    (hq : ∀ other, queues.get? other = if other = id then some rest else b.queues.get? other)
    (he : b.queue id = ms ++ rest) : b.Takes id ms { b with queues } := by
  have hid : queues.get? id = some rest := by rw [hq, if_pos rfl]
  refine ⟨rfl, rfl, fun other ho => ?_, ?_, ?_⟩
  · rw [hq, if_neg ho]
  · simp only [isLive_eq_isSome, hid, Option.isSome_some]
  · rw [he, queue_of_get? (b := { b with queues }) hid]

theorem isLive_eq (h : b.Takes id ms c) (hb : b.isLive id = true) (other : SubscriptionId) :
    c.isLive other = b.isLive other := by
  by_cases ho : other = id
  · rw [ho, h.live, hb]
  · simp only [isLive_eq_isSome, h.others other ho]

theorem receive (h : b.isLive id = true) :
    b.Takes id (Answer.polled (b.receive id).1).messages (b.receive id).2 := by
  simp only [Bus.receive]
  cases hq : b.queue id with
  | nil =>
    by_cases ha : id ∈ b.attached
    · simp only [if_pos ha]
      exact nothing h
    · simp only [if_neg ha]
      exact nothing h
  | cons m rest => exact of_queues (fun other => Table.get?_set b.queues id other rest) hq

theorem next (h : b.isLive id = true) : b.Takes id (b.next? id).1.toList (b.next? id).2 := by
  have hr := receive h
  simp only [next?]
  generalize b.receive id = r at hr
  obtain ⟨_ | _ | _, c⟩ := r <;> exact hr

theorem await {reply : Option μ × Bus μ} (h : b.isLive id = true) (hr : b.await id = some reply) :
    b.Takes id reply.1.toList reply.2 := by
  have ht := receive h
  simp only [Bus.await] at hr
  generalize b.receive id = r at hr ht
  obtain ⟨m | _ | _, c⟩ := r
  · simp only [Option.some.injEq] at hr
    rw [← hr]
    exact ht
  · cases hr
  · simp only [Option.some.injEq] at hr
    rw [← hr]
    exact ht

theorem modify (h : b.isLive id = true) {f : List μ → List μ}
    (hf : b.queue id = ms ++ f (b.queue id)) :
    b.Takes id ms { b with queues := b.queues.modify id f } := by
  refine of_queues (fun other => ?_) hf
  rw [Table.get?_modify]
  split
  · rename_i ho
    rw [ho, get?_of_isLive h, Option.map_some]
  · rfl

end Takes

/-- What an operation that receives does, if it happens. -/
theorem Operation.takes {b c : Bus μ} {o : Operation μ} {a : Answer μ} {id : SubscriptionId}
    (ho : o.receiver? = some id) (h : o.run b = some (a, c)) :
    b.isLive id = true ∧ b.Takes id a.messages c := by
  cases o with
  | subscribe | drop | publish | close => cases ho
  | next id' =>
    cases ho
    obtain ⟨hl, h⟩ := Option.ite_none_right_eq_some.mp h
    simp only [Option.some.injEq, Prod.mk.injEq] at h
    rw [← h.1, ← h.2]
    exact ⟨hl, .next hl⟩
  | await id' =>
    cases ho
    obtain ⟨hl, h⟩ := Option.ite_none_right_eq_some.mp h
    obtain ⟨reply, hr, h⟩ := Option.map_eq_some_iff.mp h
    simp only [Prod.mk.injEq] at h
    rw [← h.1, ← h.2]
    exact ⟨hl, .await hl hr⟩
  | poll id' =>
    cases ho
    obtain ⟨hl, h⟩ := Option.ite_none_right_eq_some.mp h
    simp only [Option.some.injEq, Prod.mk.injEq] at h
    rw [← h.1, ← h.2]
    exact ⟨hl, .receive hl⟩
  | take id' n =>
    cases ho
    obtain ⟨hl, h⟩ := Option.ite_none_right_eq_some.mp h
    simp only [Option.some.injEq, Prod.mk.injEq] at h
    rw [← h.1, ← h.2]
    exact ⟨hl, .modify hl (List.take_append_drop n _).symm⟩
  | drain id' =>
    cases ho
    obtain ⟨hl, h⟩ := Option.ite_none_right_eq_some.mp h
    simp only [Option.some.injEq, Prod.mk.injEq] at h
    rw [← h.1, ← h.2]
    exact ⟨hl, .modify hl (List.append_nil _).symm⟩

/-! ## The bus agrees with its history -/

open History

/-- What a bus keeps is what its history tells. -/
structure Agrees (h : History μ) (b : Bus μ) : Prop where
  subscribed_iff : ∀ id, id ∈ subscribed h ↔ id.val < b.made
  live_iff : ∀ id, b.isLive id = true ↔ id ∈ subscribed h ∧ id ∉ dropped h
  dropped_subscribed : ∀ id ∈ dropped h, id ∈ subscribed h
  since_subscribed : ∀ id ∈ subscribedSinceClose h, id ∈ subscribed h
  attached_eq : b.attached = (subscribedSinceClose h).filter (· ∉ droppedAtPublish h)
  attached_nodup : b.attached.Nodup
  /-- A subscription gets what is published as long as the bus serves it. -/
  open_iff : ∀ id, b.isLive id = true →
    ((∀ f ∈ since id h, f.ends id = false) ↔ id ∈ b.attached)
  unread : ∀ id, id ∉ subscribed h → received id h = []
  delivered : ∀ id, b.isLive id = true → received id h ++ b.queue id = window id h

namespace Agrees

variable {h : History μ} {b c : Bus μ} {e : Entry μ} {id : SubscriptionId}

theorem nil : Agrees ([] : History μ) empty where
  subscribed_iff := fun id => by simp [subscribed, empty]
  live_iff := fun id => by simp [subscribed, empty, isLive_eq_isSome, Table.get?]
  dropped_subscribed := fun id hd => by simp [dropped] at hd
  since_subscribed := fun id hs => by simp [subscribedSinceClose, subscribed] at hs
  attached_eq := rfl
  attached_nodup := List.nodup_nil
  open_iff := fun id hl => by simp [empty, isLive_eq_isSome, Table.get?] at hl
  unread := fun _ _ => rfl
  delivered := fun id hl => by simp [empty, isLive_eq_isSome, Table.get?] at hl

theorem droppedAtPublish_subset (h : History μ) : droppedAtPublish h ⊆ dropped h := fun _ hd =>
  ((List.rdropWhile_prefix _ h).sublist.filterMap _).subset hd

theorem subscribed_of_attached (ha : Agrees h b) (hm : id ∈ b.attached) : id ∈ subscribed h := by
  rw [ha.attached_eq] at hm
  exact ha.since_subscribed id (List.mem_filter.mp hm).1

/-- Among the subscriptions that are not dropped, the bus serves those made since it was closed. -/
theorem attached_iff (ha : Agrees h b) (hl : b.isLive id = true) :
    id ∈ b.attached ↔ id ∈ subscribedSinceClose h := by
  rw [ha.attached_eq, List.mem_filter]
  have hd : id ∉ droppedAtPublish h := fun hd =>
    ((ha.live_iff id).mp hl).2 (droppedAtPublish_subset h hd)
  simp [hd]

theorem served_eq (ha : Agrees h b) :
    b.attached.filter b.isLive = (subscribedSinceClose h).filter (· ∉ dropped h) := by
  rw [ha.attached_eq, List.filter_filter]
  refine List.filter_congr fun id hs => ?_
  have hl := ha.live_iff id
  simp only [ha.since_subscribed id hs, true_and] at hl
  rw [Bool.eq_iff_iff, Bool.and_eq_true, hl, decide_eq_true_eq, decide_eq_true_eq]
  exact ⟨And.left, fun hd => ⟨hd, fun hp => hd (droppedAtPublish_subset h hp)⟩⟩

theorem window_concat (ha : Agrees h b) (hl : b.isLive id = true) (e : Entry μ) :
    window id (h ++ [e]) = window id h ++
      if id ∈ b.attached ∧ e.ends id = false then e.published?.toList else [] := by
  have hm := ((ha.live_iff id).mp hl).1
  by_cases ho : id ∈ b.attached
  · rw [window_concat_of_open h e id hm ((ha.open_iff id hl).mpr ho)]
    cases e.ends id <;> simp [ho]
  · have hended : ∃ f ∈ since id h, f.ends id = true := by
      by_contra hc
      refine ho ((ha.open_iff id hl).mp fun f hf => ?_)
      exact Bool.eq_false_iff.mpr fun he => hc ⟨f, hf, he⟩
    rw [window_append_of_ended h id hm hended [e]]
    simp [ho]

theorem open_concat (ha : Agrees h b) (hl : b.isLive id = true) (e : Entry μ) :
    (∀ f ∈ since id (h ++ [e]), f.ends id = false) ↔ id ∈ b.attached ∧ e.ends id = false := by
  rw [since_append_of_subscribed h id ((ha.live_iff id).mp hl).1 [e], ← ha.open_iff id hl]
  simp only [List.mem_append, List.mem_singleton, or_imp, forall_and, forall_eq]

/-- A message is received. -/
theorem receive (ha : Agrees h b) (hid : e.operation.receiver? = some id)
    (hl : b.isLive id = true) (ht : b.Takes id e.answer.messages c) : Agrees (h ++ [e]) c := by
  obtain ⟨hs, hd, hp, hc⟩ : e.subscribed? = none ∧ e.dropped? = none ∧ e.published? = none ∧
      e.isClose = false := by
    obtain ⟨o, a⟩ := e
    cases o with
    | subscribe | drop | publish | close => cases hid
    | next | await | poll | take | drain => exact ⟨rfl, rfl, rfl, rfl⟩
  have hends : ∀ other, e.ends other = false := fun other => by simp [Entry.ends, hc, hd]
  have hlive := ht.isLive_eq hl
  constructor
  case subscribed_iff =>
    rw [subscribed_concat, hs, ht.made_eq]
    simpa using ha.subscribed_iff
  case live_iff =>
    intro other
    rw [subscribed_concat, dropped_concat, hs, hd, hlive]
    simpa using ha.live_iff other
  case dropped_subscribed =>
    rw [subscribed_concat, dropped_concat, hs, hd]
    simpa using ha.dropped_subscribed
  case since_subscribed =>
    rw [subscribed_concat, subscribedSinceClose_concat, hs, hc]
    simpa using ha.since_subscribed
  case attached_eq =>
    rw [subscribedSinceClose_concat, droppedAtPublish_concat, hs, hc, hp, ht.attached_eq]
    simpa using ha.attached_eq
  case attached_nodup =>
    rw [ht.attached_eq]
    exact ha.attached_nodup
  case open_iff =>
    intro other ho
    rw [hlive] at ho
    rw [ha.open_concat ho, hends, ht.attached_eq]
    simp
  case unread =>
    intro other ho
    rw [subscribed_concat, hs] at ho
    simp only [Option.toList_none, List.append_nil] at ho
    have hne : id ≠ other := fun he => ho (he ▸ ((ha.live_iff id).mp hl).1)
    rw [received_concat, ha.unread other ho, Entry.received, hid, if_neg (by simpa using hne)]
    rfl
  case delivered =>
    intro other ho
    rw [hlive] at ho
    rw [ha.window_concat ho, hp, received_concat, Entry.received, hid, ← ha.delivered other ho]
    by_cases hne : id = other
    · subst hne
      simp [ht.queue_eq]
    · simp [hne, queue, ht.others other (Ne.symm hne)]

theorem subscribe (ha : Agrees h b) :
    Agrees (h ++ [⟨.subscribe, .subscribed b.subscribe.1⟩]) b.subscribe.2 := by
  have hnew : (⟨b.made⟩ : SubscriptionId) ∉ subscribed h := fun hm =>
    Nat.lt_irrefl _ ((ha.subscribed_iff _).mp hm)
  have hget : ∀ id, b.subscribe.2.queues.get? id =
      if id = ⟨b.made⟩ then some [] else b.queues.get? id := fun id => Table.get?_set ..
  have hold : ∀ id ≠ (⟨b.made⟩ : SubscriptionId), b.subscribe.2.isLive id = b.isLive id := by
    intro id hid
    simp only [isLive_eq_isSome, hget, if_neg hid]
  have hends : ∀ id, Entry.ends id (⟨.subscribe, .subscribed b.subscribe.1⟩ : Entry μ) = false :=
    fun _ => rfl
  have hown : Entry.subscribed? (⟨.subscribe, .subscribed b.subscribe.1⟩ : Entry μ) =
      some ⟨b.made⟩ := rfl
  constructor
  case subscribed_iff =>
    intro id
    obtain ⟨n⟩ := id
    rw [subscribed_concat, List.mem_append, ha.subscribed_iff]
    simp only [Entry.subscribed?, Bus.subscribe, Option.toList_some, List.mem_singleton,
      SubscriptionId.mk.injEq]
    omega
  case live_iff =>
    intro id
    rw [subscribed_concat, dropped_concat]
    by_cases hid : id = ⟨b.made⟩
    · have hd : id ∉ dropped h := fun hd => hnew (hid ▸ ha.dropped_subscribed id hd)
      rw [isLive_eq_isSome, hget, if_pos hid]
      simp [hid ▸ hd, hid, Entry.subscribed?, Entry.dropped?, Bus.subscribe]
    · rw [hold id hid, ha.live_iff id]
      simp [Entry.subscribed?, Entry.dropped?, Bus.subscribe, hid]
  case dropped_subscribed =>
    intro id hd
    rw [dropped_concat] at hd
    rw [subscribed_concat]
    exact List.mem_append_left _ (ha.dropped_subscribed id (by simpa [Entry.dropped?] using hd))
  case since_subscribed =>
    intro id hs
    rw [subscribedSinceClose_concat] at hs
    rw [subscribed_concat]
    rcases List.mem_append.mp (show id ∈ _ ++ _ from hs) with hs | hs
    · exact List.mem_append_left _ (ha.since_subscribed id hs)
    · exact List.mem_append_right _ hs
  case attached_eq =>
    rw [subscribedSinceClose_concat, droppedAtPublish_concat]
    have hd : (⟨b.made⟩ : SubscriptionId) ∉ droppedAtPublish h := fun hd =>
      hnew (ha.dropped_subscribed _ (droppedAtPublish_subset h hd))
    simp [Entry.isClose, Entry.published?, Entry.subscribed?, Bus.subscribe, ha.attached_eq, hd]
  case attached_nodup =>
    refine List.nodup_append.mpr ⟨ha.attached_nodup, List.nodup_singleton _, ?_⟩
    rintro id hm _ hn rfl
    exact hnew (List.mem_singleton.mp hn ▸ ha.subscribed_of_attached hm)
  case open_iff =>
    intro id hl
    by_cases hid : id = ⟨b.made⟩
    · rw [hid, since_concat_of_not_subscribed h _ _ hnew, if_pos hown]
      simp only [List.mem_singleton, forall_eq, hends, true_iff]
      exact List.mem_append_right _ (List.mem_singleton_self _)
    · rw [hold id hid] at hl
      rw [ha.open_concat hl, hends]
      simp [Bus.subscribe, hid]
  case unread =>
    intro id hm
    rw [subscribed_concat] at hm
    rw [received_concat, ha.unread id fun hc => hm (List.mem_append_left _ hc)]
    rfl
  case delivered =>
    intro id hl
    by_cases hid : id = ⟨b.made⟩
    · rw [hid, received_concat, ha.unread _ hnew, queue, hget, if_pos rfl, window,
        since_concat_of_not_subscribed h _ _ hnew, if_pos hown]
      rfl
    · rw [hold id hid] at hl
      rw [ha.window_concat hl, received_concat, ← ha.delivered id hl, queue, queue, hget, if_neg hid]
      simp [Entry.received, Operation.receiver?, Entry.published?]

theorem drop (ha : Agrees h b) (hl : b.isLive id = true) :
    Agrees (h ++ [⟨.drop id, .done⟩]) (b.drop id) := by
  have hget : ∀ other, (b.drop id).queues.get? other =
      if other = id then none else b.queues.get? other := fun other => Table.get?_erase ..
  have hrest : ∀ other, (b.drop id).isLive other = true → other ≠ id ∧ b.isLive other = true := by
    intro other ho
    by_cases hid : other = id
    · simp [isLive_eq_isSome, hget, hid] at ho
    · simp only [isLive_eq_isSome, hget, if_neg hid] at ho
      exact ⟨hid, ho⟩
  have hends : ∀ other ≠ id, Entry.ends other (⟨.drop id, .done⟩ : Entry μ) = false := by
    intro other hid
    simp [Entry.ends, Entry.isClose, Entry.dropped?, Ne.symm hid]
  constructor
  case subscribed_iff =>
    rw [subscribed_concat]
    simpa [Entry.subscribed?, Bus.drop] using ha.subscribed_iff
  case live_iff =>
    intro other
    rw [subscribed_concat, dropped_concat]
    by_cases hid : other = id
    · simp [isLive_eq_isSome, hget, hid, Entry.dropped?]
    · have ho := ha.live_iff other
      simp only [isLive_eq_isSome] at ho
      simp [isLive_eq_isSome, hget, hid, ho, Entry.subscribed?, Entry.dropped?]
  case dropped_subscribed =>
    intro other hd
    rw [dropped_concat] at hd
    rw [subscribed_concat]
    refine List.mem_append_left _ ?_
    rcases List.mem_append.mp hd with hd | hd
    · exact ha.dropped_subscribed other hd
    · obtain rfl : other = id := by simpa [Entry.dropped?] using hd
      exact ((ha.live_iff other).mp hl).1
  case since_subscribed =>
    rw [subscribed_concat, subscribedSinceClose_concat]
    simpa [Entry.subscribed?, Entry.isClose] using ha.since_subscribed
  case attached_eq =>
    rw [subscribedSinceClose_concat, droppedAtPublish_concat]
    simpa [Entry.subscribed?, Entry.isClose, Entry.published?, Bus.drop] using ha.attached_eq
  case attached_nodup =>
    exact ha.attached_nodup
  case open_iff =>
    intro other ho
    obtain ⟨hid, ho⟩ := hrest other ho
    rw [ha.open_concat ho, hends other hid]
    simp [Bus.drop]
  case unread =>
    intro other ho
    rw [subscribed_concat] at ho
    rw [received_concat, ha.unread other fun hc => ho (List.mem_append_left _ hc)]
    rfl
  case delivered =>
    intro other ho
    obtain ⟨hid, ho⟩ := hrest other ho
    rw [ha.window_concat ho, received_concat, ← ha.delivered other ho, queue, queue, hget, if_neg hid]
    simp [Entry.received, Operation.receiver?, Entry.published?]

theorem publish (ha : Agrees h b) (m : μ) :
    Agrees (h ++ [⟨.publish m, .served (b.publish m).1⟩]) (b.publish m).2 := by
  have hget := get?_publish b ha.attached_nodup m
  have hlive : ∀ id, (b.publish m).2.isLive id = b.isLive id := fun id => by
    simp only [isLive_eq_isSome, hget, Option.isSome_map]
  have hends : ∀ id, Entry.ends id (⟨.publish m, .served (b.publish m).1⟩ : Entry μ) = false :=
    fun _ => rfl
  constructor
  case subscribed_iff =>
    rw [subscribed_concat]
    simpa [Entry.subscribed?, Bus.publish] using ha.subscribed_iff
  case live_iff =>
    intro id
    rw [subscribed_concat, dropped_concat, hlive id]
    simpa [Entry.subscribed?, Entry.dropped?] using ha.live_iff id
  case dropped_subscribed =>
    rw [subscribed_concat, dropped_concat]
    simpa [Entry.subscribed?, Entry.dropped?] using ha.dropped_subscribed
  case since_subscribed =>
    rw [subscribed_concat, subscribedSinceClose_concat]
    simpa [Entry.subscribed?, Entry.isClose] using ha.since_subscribed
  case attached_eq =>
    rw [subscribedSinceClose_concat, droppedAtPublish_concat]
    simpa [Entry.subscribed?, Entry.isClose, Entry.published?, Entry.dropped?, Bus.publish]
      using ha.served_eq
  case attached_nodup =>
    exact ha.attached_nodup.filter _
  case open_iff =>
    intro id hl
    rw [hlive] at hl
    rw [ha.open_concat hl, hends]
    simp [Bus.publish, hl]
  case unread =>
    intro id ho
    rw [subscribed_concat] at ho
    rw [received_concat, ha.unread id fun hc => ho (List.mem_append_left _ hc)]
    rfl
  case delivered =>
    intro id hl
    rw [hlive] at hl
    rw [ha.window_concat hl, received_concat, ← ha.delivered id hl, queue, hget,
      get?_of_isLive hl, hends]
    by_cases ho : id ∈ b.attached <;>
      simp [ho, Entry.received, Operation.receiver?, Entry.published?]

theorem close (ha : Agrees h b) : Agrees (h ++ [⟨.close, .done⟩]) b.close := by
  have hends : ∀ id, Entry.ends id (⟨.close, .done⟩ : Entry μ) = true := fun _ => rfl
  constructor
  case subscribed_iff =>
    rw [subscribed_concat]
    simpa [Entry.subscribed?, Bus.close] using ha.subscribed_iff
  case live_iff =>
    intro id
    rw [subscribed_concat, dropped_concat]
    simpa [Entry.subscribed?, Entry.dropped?, isLive, Bus.close] using ha.live_iff id
  case dropped_subscribed =>
    rw [subscribed_concat, dropped_concat]
    simpa [Entry.subscribed?, Entry.dropped?] using ha.dropped_subscribed
  case since_subscribed =>
    rw [subscribedSinceClose_concat]
    exact fun _ hs => nomatch hs
  case attached_eq =>
    rw [subscribedSinceClose_concat]
    rfl
  case attached_nodup =>
    exact List.nodup_nil
  case open_iff =>
    intro id hl
    rw [ha.open_concat hl, hends]
    simp [Bus.close]
  case unread =>
    intro id ho
    rw [subscribed_concat] at ho
    rw [received_concat, ha.unread id fun hc => ho (List.mem_append_left _ hc)]
    rfl
  case delivered =>
    intro id hl
    rw [ha.window_concat hl, hends, received_concat]
    simpa [Entry.received, Operation.receiver?, queue, Bus.close] using ha.delivered id hl

/-- Every operation that happens keeps a bus and its history in agreement. -/
theorem step (ha : Agrees h b) {o : Operation μ} {a : Answer μ} (hr : o.run b = some (a, c)) :
    Agrees (h ++ [⟨o, a⟩]) c := by
  cases o with
  | subscribe =>
    simp only [Operation.run, Option.some.injEq, Prod.mk.injEq] at hr
    rw [← hr.1, ← hr.2]
    exact ha.subscribe
  | drop id =>
    obtain ⟨hl, hr⟩ := Option.ite_none_right_eq_some.mp hr
    simp only [Option.some.injEq, Prod.mk.injEq] at hr
    rw [← hr.1, ← hr.2]
    exact ha.drop hl
  | publish m =>
    simp only [Operation.run, Option.some.injEq, Prod.mk.injEq] at hr
    rw [← hr.1, ← hr.2]
    exact ha.publish m
  | close =>
    simp only [Operation.run, Option.some.injEq, Prod.mk.injEq] at hr
    rw [← hr.1, ← hr.2]
    exact ha.close
  | next id | await id | poll id | take id n | drain id =>
    obtain ⟨hl, ht⟩ := Operation.takes rfl hr
    exact ha.receive rfl hl ht

theorem perform (ha : Agrees h b) (ops : List (Operation μ)) :
    Agrees (h ++ (Bus.perform ops b).1) (Bus.perform ops b).2 := by
  induction ops generalizing h b with
  | nil =>
    rw [Bus.perform, List.append_nil]
    exact ha
  | cons o rest ih =>
    rw [Bus.perform]
    split
    · rename_i a c hr
      have hn := ih (ha.step hr)
      rw [List.append_assoc] at hn
      exact hn
    · exact ih ha

end Agrees

theorem agrees_perform (ops : List (Operation μ)) :
    Agrees (Bus.perform ops empty).1 (Bus.perform ops empty).2 :=
  Agrees.nil.perform ops

theorem perform_append (first rest : List (Operation μ)) (b : Bus μ) :
    Bus.perform (first ++ rest) b =
      ((Bus.perform first b).1 ++ (Bus.perform rest (Bus.perform first b).2).1,
        (Bus.perform rest (Bus.perform first b).2).2) := by
  induction first generalizing b with
  | nil => rfl
  | cons o first ih =>
    rw [List.cons_append, Bus.perform, Bus.perform]
    split
    · rw [ih]
      rfl
    · exact ih b

/-- A dropped subscription receives nothing more. -/
theorem Agrees.received_of_dropped {h : History μ} {b : Bus μ} {id : SubscriptionId}
    (ha : Agrees h b) (hd : id ∈ dropped h) (ops : List (Operation μ)) :
    received id (Bus.perform ops b).1 = [] := by
  induction ops generalizing h b with
  | nil => rfl
  | cons o rest ih =>
    rw [Bus.perform]
    split
    · rename_i a c hr
      have hne : o.receiver? ≠ some id := fun ho =>
        ((ha.live_iff id).mp (Operation.takes ho hr).1).2 hd
      have hd' : id ∈ dropped (h ++ [⟨o, a⟩]) := by
        rw [dropped_concat]
        exact List.mem_append_left _ hd
      have hrest := ih (ha.step hr) hd'
      rw [received, List.flatMap_cons, Entry.received, if_neg hne]
      exact hrest
    · exact ih ha hd

/-- What a dropped subscription has received, and what was queued for it then, is all that it will ever
have been due. -/
theorem received_append_queue_of_drop (first rest : List (Operation μ)) {id : SubscriptionId}
    (hl : (Bus.perform first empty).2.isLive id = true) :
    received id (Bus.perform (first ++ .drop id :: rest) empty).1 ++
        (Bus.perform first empty).2.queue id =
      window id (Bus.perform (first ++ .drop id :: rest) empty).1 := by
  have ha := agrees_perform first
  rw [perform_append]
  generalize Bus.perform first empty = before at ha hl ⊢
  obtain ⟨h, b⟩ := before
  simp only at ha hl ⊢
  -- The drop ends what the subscription is due and what it receives, so both are as they were before it.
  let e : Entry μ := ⟨.drop id, .done⟩
  have hrun : (Bus.perform (.drop id :: rest) b).1 = e :: (Bus.perform rest (b.drop id)).1 := by
    rw [Bus.perform]
    simp only [Operation.run, hl, if_true, e]
  have hm : id ∈ subscribed h := ((ha.live_iff id).mp hl).1
  have hm' : id ∈ subscribed (h ++ [e]) := by
    rw [subscribed_concat]
    exact List.mem_append_left _ hm
  have hd : id ∈ dropped (h ++ [e]) := by
    rw [dropped_concat]
    exact List.mem_append_right _ (List.mem_singleton_self _)
  have hended : ∃ f ∈ since id (h ++ [e]), f.ends id = true := by
    refine ⟨e, ?_, by simp [e, Entry.ends, Entry.dropped?]⟩
    rw [since_append_of_subscribed _ _ hm]
    exact List.mem_append_right _ (List.mem_singleton_self _)
  have hwindow : window id (h ++ e :: (Bus.perform rest (b.drop id)).1) = window id h := by
    rw [List.append_cons, window_append_of_ended _ _ hm' hended, ha.window_concat hl]
    simp [e, Entry.published?]
  have hreceived : received id (h ++ e :: (Bus.perform rest (b.drop id)).1) = received id h := by
    have hnone := (ha.drop hl).received_of_dropped hd rest
    rw [List.append_cons, received, List.flatMap_append]
    change received id (h ++ [e]) ++ received id (Bus.perform rest (b.drop id)).1 = _
    rw [hnone, received_concat]
    simp [e, Entry.received, Operation.receiver?]
  rw [hrun, hwindow, hreceived]
  exact ha.delivered id hl

/-- What the bus answers to one who waits, by what is queued and whether it still serves him. -/
theorem await_eq (b : Bus μ) (id : SubscriptionId) :
    (b.await id).map (·.1) =
      match b.queue id with
      | m :: _ => some (some m)
      | [] => if id ∈ b.attached then none else some none := by
  simp only [await, receive]
  cases b.queue id with
  | cons m rest => rfl
  | nil => by_cases h : id ∈ b.attached <;> simp [h]

theorem receive_eq (b : Bus μ) (id : SubscriptionId) :
    (b.receive id).1 =
      match b.queue id with
      | m :: _ => .message m
      | [] => if id ∈ b.attached then .idle else .closed := by
  simp only [receive]
  cases b.queue id <;> rfl

theorem next?_eq (b : Bus μ) (id : SubscriptionId) : (b.next? id).1 = (b.queue id).head? := by
  simp only [next?, receive]
  cases b.queue id with
  | cons m rest => rfl
  | nil => by_cases h : id ∈ b.attached <;> simp [h]

/-- Nobody but one who waits is kept from an operation on a subscription that is there. -/
theorem Operation.isSome_run {b : Bus μ} {o : Operation μ}
    (hu : ∀ id, o.uses? = some id → b.isLive id = true) (hw : ∀ id, o ≠ .await id) :
    (o.run b).isSome = true := by
  cases o with
  | subscribe | publish | close => rfl
  | drop id | next id | poll id | take id n | drain id => simp only [run, hu id rfl, if_true]; rfl
  | await id => exact absurd rfl (hw id)

/-- A subscription receives what is published behind its beginning, up to the first close after that or
until it is dropped: each message once and in order, and what it has not received is queued for it. Who
receives takes from his own queue and changes nothing else. A message goes to all subscriptions that were
made since the last close and not dropped, and the bus counts those that had not been dropped at the last
publication. One who finds his queue empty is told that nothing will come if the bus was closed since he
subscribed, and only then. -/
theorem subscriptions_receive_what_is_published (ops : List (Operation μ)) :
    let h := (Bus.perform ops empty).1
    let b := (Bus.perform ops empty).2
    (∀ id, b.isLive id = true ↔ id ∈ subscribed h ∧ id ∉ dropped h) ∧
    (∀ id, b.isLive id = true → received id h ++ b.queue id = window id h) ∧
    (∀ first rest id, ops = first ++ .drop id :: rest → (Bus.perform first empty).2.isLive id = true →
      received id h ++ (Bus.perform first empty).2.queue id = window id h) ∧
    (∀ id (o : Operation μ) a c, o.receiver? = some id → o.run b = some (a, c) →
      b.Takes id a.messages c) ∧
    (∀ m, (b.publish m).1 = ((subscribedSinceClose h).filter (· ∉ dropped h)).length) ∧
    b.count + ((subscribedSinceClose h).filter (· ∈ droppedAtPublish h)).length =
      (subscribedSinceClose h).length ∧
    (∀ id, b.isLive id = true →
      (b.receive id).1 = (match b.queue id with
        | m :: _ => .message m
        | [] => if id ∈ subscribedSinceClose h then .idle else .closed) ∧
      (b.await id).map (·.1) = (match b.queue id with
        | m :: _ => some (some m)
        | [] => if id ∈ subscribedSinceClose h then none else some none) ∧
      (b.next? id).1 = (b.queue id).head? ∧ (b.drain id).1 = b.queue id ∧
      ∀ n, (b.take id n).1 = (b.queue id).take n) ∧
    ∀ o : Operation μ, (∀ id, o.uses? = some id → b.isLive id = true) → (∀ id, o ≠ .await id) →
      (o.run b).isSome = true := by
  intro h b
  have ha : Agrees h b := agrees_perform ops
  refine ⟨ha.live_iff, ha.delivered, ?_, fun id o a c ho hr => (o.takes ho hr).2, fun m => ?_, ?_,
    fun id hl => ?_, fun o hu hw => Operation.isSome_run hu hw⟩
  · rintro first rest id rfl hl
    exact received_append_queue_of_drop first rest hl
  · rw [← ha.served_eq]
    rfl
  · rw [count, ha.attached_eq, Nat.add_comm]
    have hsplit := (subscribedSinceClose h).length_eq_length_filter_add
      fun id => decide (id ∈ droppedAtPublish h)
    simpa using hsplit.symm
  · simp only [← ha.attached_iff hl]
    exact ⟨b.receive_eq id, b.await_eq id, b.next?_eq id, rfl, fun _ => rfl⟩

/-- A run in which one subscription is dropped unread, another one outlives a close, and a third one is
made behind it. -/
def closedRun : List (Operation Nat) :=
  [.subscribe, .subscribe, .publish 1, .drop ⟨1⟩, .close, .subscribe, .publish 2, .poll ⟨0⟩]

/-- The first subscription has received what was queued before the close and is told that nothing more
will come; what was queued for the dropped one was all that it was due; the third one is served, and what
it receives it takes from its own queue. -/
theorem subscription_outlives_close :
    let h := (Bus.perform closedRun empty).1
    let b := (Bus.perform closedRun empty).2
    b.isLive ⟨0⟩ = true ∧ received ⟨0⟩ h ++ b.queue ⟨0⟩ = [1] ∧ (b.receive ⟨0⟩).1 = .closed ∧
      received ⟨1⟩ h ++ (Bus.perform (closedRun.take 3) empty).2.queue ⟨1⟩ = [1] ∧
      (b.publish 3).1 = 1 ∧ (b.receive ⟨2⟩).1 = .message 2 ∧
      ∃ c, (Operation.drain ⟨2⟩).run b = some (.all [2], c) ∧ b.Takes ⟨2⟩ [2] c := by
  intro h b
  obtain ⟨_, hwindow, hdrop, htakes, hpublish, _, hanswer, _⟩ :=
    subscriptions_receive_what_is_published closedRun
  have hfirst : b.isLive ⟨0⟩ = true := by decide
  have hthird : b.isLive ⟨2⟩ = true := by decide
  refine ⟨hfirst, (hwindow ⟨0⟩ hfirst).trans (by decide), (hanswer ⟨0⟩ hfirst).1.trans (by decide),
    (hdrop (closedRun.take 3) (closedRun.drop 4) ⟨1⟩ rfl (by decide)).trans (by decide),
    (hpublish 3).trans (by decide), (hanswer ⟨2⟩ hthird).1.trans (by decide), (b.drain ⟨2⟩).2, rfl, ?_⟩
  exact htakes ⟨2⟩ (.drain ⟨2⟩) (.all [2]) _ rfl rfl

end SessionTrail.Bus

import SessionTrail.Action
import SessionTrail.Proofs.Subscriptions

/-!
# The loop of a worker

A worker hands the messages of its subscription to a listener. It asks the bus for a message, hands over
what it gets, and looks then whether it has been told to stop. Once it has been told, it hands over what is
queued and stops; it also stops when the bus has closed and nothing is queued any more. Between two of its
steps the others publish, close the bus or tell the worker to stop, and what the listener works on may
change.

What the worker has handed over is at every moment a beginning of what it was due.
-/
namespace SessionTrail

open Bus (History Operation Entry)
open Bus.History

/-- Why a worker stops: it was told to, nothing can come any more, or its listener crashed. -/
inductive Ending where
  | signalled
  | closed
  | crashed
deriving DecidableEq, Repr

/-- How far a worker is. A worker that has left its loop lets go of its subscription only afterwards. -/
inductive Position (μ : Type) where
  | polling
  | handling (m : μ) (seen : Bool)
  | asking
  | flushing
  | leaving (why : Ending)
  | left (why : Ending)
deriving DecidableEq, Repr

/-- A worker with the bus, on which everything is written down, and with what its listener works on. -/
structure WorkerLoop (σ ε μ : Type) where
  subscription : SubscriptionId
  bus : Bus μ
  history : History μ
  position : Position μ := .polling
  /-- Whether the worker has been told to stop. -/
  signalled : Bool := false
  /-- The messages that the listener was handed, with what became of them. -/
  handled : List (μ × Outcome ε Unit) := []
  surroundings : σ

variable {σ ε μ : Type}

namespace Position

/-- The message that the listener has been handed and has not returned from. -/
def inHand : Position μ → List μ
  | .handling m _ => [m]
  | .polling | .asking | .flushing | .leaving _ | .left _ => []

def endedBy : Position μ → Option Ending
  | .leaving why | .left why => some why
  | .polling | .handling .. | .asking | .flushing => none

def hasLeft : Position μ → Bool
  | .left _ => true
  | .polling | .handling .. | .asking | .flushing | .leaving _ => false

/-- Whether the worker has seen that it is to stop. -/
def hasSeenSignal : Position μ → Bool
  | .handling _ seen => seen
  | .flushing => true
  | .leaving why | .left why => why = .signalled
  | .polling | .asking => false

/-- Where a worker goes on when its listener has returned. -/
def after (seen : Bool) : Outcome ε Unit → Position μ
  | .crashed => .leaving .crashed
  | .done _ | .failed _ => if seen then .flushing else .asking

theorem after_of_returned {o : Outcome ε Unit} (h : o ≠ .crashed) (seen : Bool) :
    (after seen o : Position μ) = if seen then .flushing else .asking := by
  cases o with
  | done | failed => rfl
  | crashed => exact absurd rfl h

theorem inHand_of_endedBy {p : Position μ} {why : Ending} (h : p.endedBy = some why) : p.inHand = [] := by
  cases p with
  | handling => nomatch h
  | polling | asking | flushing | leaving | left => rfl

theorem hasSeenSignal_of_endedBy {p : Position μ} (h : p.endedBy = some .signalled) :
    p.hasSeenSignal = true := by
  cases p with
  | leaving | left => exact decide_eq_true (Option.some.inj h)
  | polling | handling | asking | flushing => nomatch h

theorem inHand_after (seen : Bool) (o : Outcome ε Unit) : (after seen o : Position μ).inHand = [] := by
  cases o <;> cases seen <;> rfl

/-- Only a crash of its listener ends a worker that has a message in hand. -/
theorem endedBy_after {seen : Bool} {o : Outcome ε Unit} {why : Ending}
    (h : (after seen o : Position μ).endedBy = some why) : o = .crashed ∧ why = .crashed := by
  cases o <;> cases seen <;> simp_all [after, endedBy]

theorem hasSeenSignal_after {seen : Bool} {o : Outcome ε Unit}
    (h : (after seen o : Position μ).hasSeenSignal = true) : seen = true := by
  cases o <;> cases seen <;> simp_all [after, hasSeenSignal]

end Position

namespace WorkerLoop

/-- The messages that the listener was handed and is done with. -/
def delivered (s : WorkerLoop σ ε μ) : List μ := s.handled.map Prod.fst

/-- The messages that were published behind the subscription of the worker, before the first close. -/
def due (s : WorkerLoop σ ε μ) : List μ := window s.subscription s.history

/-- Something was done with the bus. -/
def did (s : WorkerLoop σ ε μ) (o : Operation μ) (a : Bus.Answer μ) (bus : Bus μ) : WorkerLoop σ ε μ :=
  { s with bus, history := s.history ++ [⟨o, a⟩] }

def goTo (s : WorkerLoop σ ε μ) (p : Position μ) : WorkerLoop σ ε μ := { s with position := p }

/-- A worker for a new subscription to a bus that has been in use. -/
def spawn (before : List (Operation μ)) (surroundings : σ) : WorkerLoop σ ε μ :=
  let (history, bus) := Bus.perform before .empty
  { subscription := bus.subscribe.1
    bus := bus.subscribe.2
    history := history ++ [⟨.subscribe, .subscribed bus.subscribe.1⟩]
    surroundings }

/-- The next step of a worker. What is queued when it has seen the signal it takes one by one. -/
def work (take : μ → Action σ ε Unit) (s : WorkerLoop σ ε μ) : WorkerLoop σ ε μ :=
  match s.position with
  | .polling =>
    let (r, bus) := s.bus.receive s.subscription
    let s := s.did (.poll s.subscription) (.polled r) bus
    match r with
    | .message m => s.goTo (.handling m false)
    | .idle => s.goTo .asking
    | .closed => s.goTo (.leaving .closed)
  | .handling m seen =>
    let (outcome, surroundings) := (take m).run s.surroundings
    { s with surroundings, handled := s.handled ++ [(m, outcome)], position := .after seen outcome }
  | .asking => s.goTo (if s.signalled then .flushing else .polling)
  | .flushing =>
    let (next, bus) := s.bus.next? s.subscription
    let s := s.did (.next s.subscription) (.next next) bus
    match next with
    | some m => s.goTo (.handling m true)
    | none => s.goTo (.leaving .signalled)
  | .leaving why =>
    (s.did (.drop s.subscription) .done (s.bus.drop s.subscription)).goTo (.left why)
  | .left _ => s

/-- What can happen next: a step of the worker, its owner's signal, something that others do with the bus,
or a change of what the listener works on. -/
inductive Move (σ μ : Type) where
  | work
  | signal
  | others (o : Operation μ)
  | meanwhile (f : σ → σ)

/-- What happens next. Nobody but the worker uses its subscription. -/
def advance (take : μ → Action σ ε Unit) (s : WorkerLoop σ ε μ) : Move σ μ → WorkerLoop σ ε μ
  | .work => s.work take
  | .signal => { s with signalled := true }
  | .others o =>
    if o.uses? = some s.subscription then s
    else
      match o.run s.bus with
      | some (a, bus) => s.did o a bus
      | none => s
  | .meanwhile f => { s with surroundings := f s.surroundings }

/-- Let moves happen in the order that is given. -/
def run (take : μ → Action σ ε Unit) (moves : List (Move σ μ)) (s : WorkerLoop σ ε μ) :
    WorkerLoop σ ε μ :=
  moves.foldl (advance take) s

end WorkerLoop

/-! ## What a history keeps -/

namespace Bus

variable {h : History μ} {b c : Bus μ} {id : SubscriptionId}

/-- A subscription is due nothing more. -/
def History.IsOver (id : SubscriptionId) (h : History μ) : Prop := ∃ f ∈ since id h, f.ends id = true

theorem History.IsOver.concat (ho : h.IsOver id) (hm : id ∈ subscribed h) (e : Entry μ) :
    IsOver id (h ++ [e]) := by
  obtain ⟨f, hf, he⟩ := ho
  refine ⟨f, ?_, he⟩
  rw [since_append_of_subscribed h id hm]
  exact List.mem_append_left _ hf

theorem History.subscribed_of_concat (hm : id ∈ subscribed h) (e : Entry μ) :
    id ∈ subscribed (h ++ [e]) := by
  rw [subscribed_concat]
  exact List.mem_append_left _ hm

/-- What a subscription is due only grows. -/
theorem History.window_grows (hm : id ∈ subscribed h) (e : Entry μ) :
    window id h <+: window id (h ++ [e]) := by
  by_cases ho : h.IsOver id
  · exact (window_append_of_ended h id hm ho [e]).symm ▸ List.prefix_rfl
  · rw [window_concat_of_open h e id hm fun f hf => Bool.eq_false_iff.mpr fun he => ho ⟨f, hf, he⟩]
    exact List.prefix_append ..

/-- What a subscription has received is, after every operation, a beginning of what it was due. -/
theorem Agrees.received_begins (ha : Agrees h b) {o : Operation μ} {a : Answer μ}
    (hr : o.run b = some (a, c)) (hm : id ∈ subscribed h) (hp : received id h <+: window id h) :
    received id (h ++ [⟨o, a⟩]) <+: window id (h ++ [⟨o, a⟩]) := by
  by_cases ho : o.receiver? = some id
  · rw [← (ha.step hr).delivered id (Operation.takes ho hr).2.live]
    exact List.prefix_append ..
  · rw [received_concat, Entry.received, if_neg ho, List.append_nil]
    exact hp.trans (window_grows hm _)

/-- Nobody drops a subscription that he does not use. -/
theorem Agrees.isLive_of_run (ha : Agrees h b) {o : Operation μ} {a : Answer μ}
    (hr : o.run b = some (a, c)) (hu : o ≠ .drop id) (hl : b.isLive id = true) :
    c.isLive id = true := by
  obtain ⟨hm, hd⟩ := (ha.live_iff id).mp hl
  refine ((ha.step hr).live_iff id).mpr ⟨subscribed_of_concat hm _, fun hc => ?_⟩
  rw [dropped_concat] at hc
  rcases List.mem_append.mp hc with hc | hc
  · exact hd hc
  · cases o with
    | drop other =>
      obtain rfl : id = other := by simpa [Entry.dropped?] using hc
      exact hu rfl
    | subscribe | publish | close | next | await | poll | take | drain => simp [Entry.dropped?] at hc

end Bus

namespace WorkerLoop

variable {take : μ → Action σ ε Unit} {s t : WorkerLoop σ ε μ}

/-! ## Steps -/

/-- What a step of the worker does: it takes what the bus has for it, which may be nothing, or its listener
is done with a message, or it looks for the signal, or it lets go of its subscription. -/
inductive Works (take : μ → Action σ ε Unit) (s : WorkerLoop σ ε μ) : WorkerLoop σ ε μ → Prop where
  | took {o : Operation μ} {a : Bus.Answer μ} {b : Bus μ} {p : Position μ}
      (happened : o.run s.bus = some (a, b)) (receiver : o.receiver? = some s.subscription)
      (free : s.position.inHand = []) (inHand : p.inHand = a.messages)
      (ends : ∀ why, p.endedBy = some why → b.queue s.subscription = [] ∧
        (why = .signalled ∨ why = .closed ∧ s.subscription ∉ b.attached))
      (same : p.hasSeenSignal = s.position.hasSeenSignal) : Works take s ((s.did o a b).goTo p)
  | handled {m : μ} {seen : Bool} {o : Outcome ε Unit} {t : σ} (at_ : s.position = .handling m seen)
      (became : (take m).run s.surroundings = (o, t)) :
      Works take s { s with
        surroundings := t, handled := s.handled ++ [(m, o)], position := .after seen o }
  | looked (at_ : s.position = .asking) :
      Works take s (s.goTo (if s.signalled then .flushing else .polling))
  | left {why : Ending} (at_ : s.position = .leaving why) :
      Works take s ((s.did (.drop s.subscription) .done (s.bus.drop s.subscription)).goTo (.left why))
  | rested {why : Ending} (at_ : s.position = .left why) : Works take s s

theorem works_work (take : μ → Action σ ε Unit)
    (hl : s.position.hasLeft = false → s.bus.isLive s.subscription = true) :
    s.Works take (s.work take) := by
  cases hp : s.position with
  | polling =>
    have hr : (Operation.poll s.subscription).run s.bus =
        some (.polled (s.bus.receive s.subscription).1, (s.bus.receive s.subscription).2) :=
      if_pos (hl (hp ▸ rfl))
    rw [work, hp]
    simp only [Bus.receive] at hr ⊢
    cases hq : s.bus.queue s.subscription with
    | cons m rest =>
      simp only [hq] at hr
      exact .took hr rfl (hp ▸ rfl) rfl (fun _ he => by cases he) (hp ▸ rfl)
    | nil =>
      simp only [hq] at hr ⊢
      by_cases ha : s.subscription ∈ s.bus.attached
      · simp only [if_pos ha] at hr ⊢
        exact .took hr rfl (hp ▸ rfl) rfl (fun _ he => by cases he) (hp ▸ rfl)
      · simp only [if_neg ha] at hr ⊢
        refine .took hr rfl (hp ▸ rfl) rfl (fun why he => ⟨hq, .inr ⟨?_, ha⟩⟩) (hp ▸ rfl)
        exact (Option.some.inj he).symm
  | handling m seen =>
    rw [work, hp]
    exact .handled hp rfl
  | asking =>
    rw [work, hp]
    exact .looked hp
  | flushing =>
    have hr : (Operation.next s.subscription).run s.bus =
        some (.next (s.bus.next? s.subscription).1, (s.bus.next? s.subscription).2) :=
      if_pos (hl (hp ▸ rfl))
    rw [work, hp]
    simp only [Bus.next?, Bus.receive] at hr ⊢
    cases hq : s.bus.queue s.subscription with
    | cons m rest =>
      simp only [hq] at hr
      exact .took hr rfl (hp ▸ rfl) rfl (fun _ he => by cases he) (hp ▸ rfl)
    | nil =>
      simp only [hq] at hr ⊢
      by_cases ha : s.subscription ∈ s.bus.attached
      · simp only [if_pos ha] at hr ⊢
        exact .took hr rfl (hp ▸ rfl) rfl (fun _ he => ⟨hq, .inl (Option.some.inj he).symm⟩) (hp ▸ rfl)
      · simp only [if_neg ha] at hr ⊢
        exact .took hr rfl (hp ▸ rfl) rfl (fun _ he => ⟨hq, .inl (Option.some.inj he).symm⟩) (hp ▸ rfl)
  | leaving why =>
    rw [work, hp]
    exact .left hp
  | left why =>
    rw [work, hp]
    exact .rested hp

/-! ## In order -/

/-- The worker delivers in order: what it has received it has handed over or has in hand, and that is a
beginning of what it was due. -/
structure InOrder (s : WorkerLoop σ ε μ) : Prop where
  agrees : Bus.Agrees s.history s.bus
  subscribed : s.subscription ∈ subscribed s.history
  live : s.position.hasLeft = false → s.bus.isLive s.subscription = true
  taken : received s.subscription s.history = s.delivered ++ s.position.inHand
  in_order : received s.subscription s.history <+: s.due
  /-- A worker that left because the bus was closed has delivered everything. -/
  complete : s.position.endedBy = some .closed → s.delivered = s.due ∧ s.history.IsOver s.subscription
  told : s.position.hasSeenSignal = true → s.signalled = true

namespace InOrder

theorem spawn (before : List (Operation μ)) (surroundings : σ) :
    (WorkerLoop.spawn before surroundings : WorkerLoop σ ε μ).InOrder := by
  have ha := Bus.agrees_perform before
  simp only [WorkerLoop.spawn]
  generalize Bus.perform before .empty = r at ha ⊢
  obtain ⟨h, b⟩ := r
  have hnew : (⟨b.made⟩ : SubscriptionId) ∉ Bus.History.subscribed h := fun hm =>
    Nat.lt_irrefl _ ((ha.subscribed_iff _).mp hm)
  have hnothing : received b.subscribe.1 (h ++ [⟨.subscribe, .subscribed b.subscribe.1⟩]) = [] := by
    rw [received_concat, show received b.subscribe.1 h = [] from ha.unread _ hnew]
    rfl
  have hm : b.subscribe.1 ∈ Bus.History.subscribed (h ++ [⟨.subscribe, .subscribed b.subscribe.1⟩]) := by
    rw [subscribed_concat]
    exact List.mem_append_right _ (List.mem_singleton_self _)
  constructor
  case agrees => exact ha.subscribe
  case subscribed => exact hm
  case live =>
    intro _
    simp [Bus.subscribe, Bus.isLive_eq_isSome]
  case taken => exact hnothing
  case in_order => exact hnothing ▸ List.nil_prefix
  case complete => exact fun h => by cases h
  case told => exact fun h => by cases h

/-- What is handed over, in hand and queued is what the worker is due. -/
theorem delivered_append (h : s.InOrder) (hl : s.bus.isLive s.subscription = true) :
    s.delivered ++ s.position.inHand ++ s.bus.queue s.subscription = s.due := by
  rw [← h.taken]
  exact h.agrees.delivered _ hl

/-- Others use the bus. -/
theorem others (h : s.InOrder) {o : Operation μ} {a : Bus.Answer μ} {b : Bus μ}
    (hr : o.run s.bus = some (a, b)) (hu : o.uses? ≠ some s.subscription) : (s.did o a b).InOrder := by
  have hnot : o.receiver? ≠ some s.subscription := by
    cases o with
    | drop => exact fun ho => nomatch ho
    | subscribe | publish | close | next | await | poll | take | drain => exact hu
  have hsame : received s.subscription (s.history ++ [⟨o, a⟩]) = received s.subscription s.history := by
    rw [received_concat, Entry.received, if_neg hnot, List.append_nil]
  refine ⟨h.agrees.step hr, subscribed_of_concat h.subscribed _, fun hl => ?_, hsame.trans h.taken,
    h.agrees.received_begins hr h.subscribed h.in_order, fun he => ?_, h.told⟩
  · exact h.agrees.isLive_of_run hr (fun ho => hu (ho ▸ rfl)) (h.live hl)
  · obtain ⟨hd, ho⟩ := h.complete he
    refine ⟨?_, ho.concat h.subscribed _⟩
    exact hd.trans (window_append_of_ended _ _ h.subscribed ho _).symm

/-- Every step of the worker keeps it in order. -/
theorem works (h : s.InOrder) (hw : s.Works take t) : t.InOrder := by
  cases hw with
  | @took o a b p hr ho hfree hp hends hseen =>
    have hlive : b.isLive s.subscription = true := (Operation.takes ho hr).2.live
    have htaken : received s.subscription (s.history ++ [⟨o, a⟩]) = s.delivered ++ p.inHand := by
      rw [received_concat, h.taken, hfree, List.append_nil, Entry.received, if_pos ho, hp]
    refine ⟨h.agrees.step hr, subscribed_of_concat h.subscribed _, fun _ => hlive, htaken,
      h.agrees.received_begins hr h.subscribed h.in_order, fun he => ?_, fun hs => h.told (hseen ▸ hs)⟩
    -- The bus serves the worker no longer, so it was closed; and nothing is queued any more.
    obtain ⟨hq, hwhy | ⟨-, hat⟩⟩ := hends _ he
    · cases hwhy
    have hall := (h.agrees.step hr).delivered _ hlive
    rw [htaken, Position.inHand_of_endedBy (p := p) he, hq, List.append_nil, List.append_nil] at hall
    refine ⟨hall, ?_⟩
    by_contra hopen
    refine hat (((h.agrees.step hr).open_iff _ hlive).mp fun f hf => ?_)
    exact Bool.eq_false_iff.mpr fun he => hopen ⟨f, hf, he⟩
  | @handled m seen o e hp ho =>
    have htaken : received s.subscription s.history = (s.handled ++ [(m, o)]).map Prod.fst := by
      rw [h.taken, hp, delivered, List.map_append]
      rfl
    refine ⟨h.agrees, h.subscribed, fun _ => h.live (hp ▸ rfl), ?_, h.in_order, fun he => ?_, fun hs => ?_⟩
    · rw [Position.inHand_after, List.append_nil]
      exact htaken
    · cases (Position.endedBy_after he).2
    · exact h.told (hp ▸ Position.hasSeenSignal_after hs)
  | looked hp =>
    have htaken : received s.subscription s.history = s.delivered ++ [] := h.taken.trans (hp ▸ rfl)
    cases hs : s.signalled with
    | true =>
      exact ⟨h.agrees, h.subscribed, fun _ => h.live (hp ▸ rfl), htaken, h.in_order,
        (fun he => by cases he), fun _ => hs⟩
    | false =>
      exact ⟨h.agrees, h.subscribed, fun _ => h.live (hp ▸ rfl), htaken, h.in_order,
        (fun he => by cases he), (fun hs => by cases hs)⟩
  | @left why hp =>
    have hr : (Operation.drop s.subscription).run s.bus = some (.done, s.bus.drop s.subscription) :=
      if_pos (h.live (hp ▸ rfl))
    have htaken : received s.subscription (s.history ++ [⟨.drop s.subscription, .done⟩]) =
        s.delivered ++ [] := by
      rw [received_concat, h.taken, hp]
      exact List.append_nil _
    refine ⟨h.agrees.step hr, subscribed_of_concat h.subscribed _, (fun hl => by cases hl), htaken,
      h.agrees.received_begins hr h.subscribed h.in_order, fun he => ?_, fun hs => h.told (hp ▸ hs)⟩
    obtain ⟨hd, hover⟩ := h.complete (hp ▸ he)
    exact ⟨hd.trans (window_append_of_ended _ _ h.subscribed hover _).symm, hover.concat h.subscribed _⟩
  | rested hp => exact h

theorem advance (h : s.InOrder) (take : μ → Action σ ε Unit) (m : Move σ μ) :
    (s.advance take m).InOrder := by
  cases m with
  | work => exact h.works (works_work take h.live)
  | signal => exact ⟨h.agrees, h.subscribed, h.live, h.taken, h.in_order, h.complete, fun _ => rfl⟩
  | others o =>
    rw [WorkerLoop.advance]
    split
    · exact h
    · rename_i hu
      split
      · rename_i a b hr
        exact h.others hr hu
      · exact h
  | meanwhile f => exact ⟨h.agrees, h.subscribed, h.live, h.taken, h.in_order, h.complete, h.told⟩

theorem run (h : s.InOrder) (take : μ → Action σ ε Unit) (moves : List (Move σ μ)) :
    (s.run take moves).InOrder := by
  induction moves generalizing s with
  | nil => exact h
  | cons m rest ih => exact ih (h.advance take m)

end InOrder

/-! ## The signal -/

theorem run_append (take : μ → Action σ ε Unit) (first rest : List (Move σ μ)) (s : WorkerLoop σ ε μ) :
    s.run take (first ++ rest) = (s.run take first).run take rest :=
  List.foldl_append

/-- Some messages are among those that the worker was due, and it has delivered them if it stopped because
it was told to. -/
structure Heeds (ms : List μ) (s : WorkerLoop σ ε μ) : Prop where
  due : ms <+: s.due
  delivered : s.position.endedBy = some .signalled → ms <+: s.delivered

namespace Heeds

variable {ms : List μ}

theorem works (hh : s.Heeds ms) (h : s.InOrder) (hw : s.Works take t) : t.Heeds ms := by
  have ht := h.works hw
  cases hw with
  | @took o a b p hr ho hfree hp hends hseen =>
    have hdue : ms <+: ((s.did o a b).goTo p).due := hh.due.trans (window_grows h.subscribed _)
    refine ⟨hdue, fun he => ?_⟩
    -- Nothing is in hand or queued where a worker leaves its loop, so it has delivered all that it was due.
    have hall := ht.delivered_append (Operation.takes ho hr).2.live
    have hq : b.queue s.subscription = [] := (hends _ he).1
    rw [Position.inHand_of_endedBy he, List.append_nil] at hall
    have hsame : ((s.did o a b).goTo p).delivered ++ b.queue s.subscription =
        ((s.did o a b).goTo p).due := hall
    rw [hq, List.append_nil] at hsame
    exact hsame ▸ hdue
  | @handled m seen o e hp ho => exact ⟨hh.due, fun he => nomatch (Position.endedBy_after he).2⟩
  | looked hp =>
    refine ⟨hh.due, fun he => ?_⟩
    cases hs : s.signalled <;> rw [hs] at he <;> nomatch he
  | left hp => exact ⟨hh.due.trans (window_grows h.subscribed _), fun he => hh.delivered (hp ▸ he)⟩
  | rested hp => exact hh

theorem advance (hh : s.Heeds ms) (h : s.InOrder) (take : μ → Action σ ε Unit) (m : Move σ μ) :
    (s.advance take m).Heeds ms := by
  cases m with
  | work => exact hh.works h (works_work take h.live)
  | signal | meanwhile => exact ⟨hh.due, hh.delivered⟩
  | others o =>
    rw [WorkerLoop.advance]
    split
    · exact hh
    · split
      · exact ⟨hh.due.trans (window_grows h.subscribed _), hh.delivered⟩
      · exact hh

theorem run (hh : s.Heeds ms) (h : s.InOrder) (take : μ → Action σ ε Unit) (moves : List (Move σ μ)) :
    (s.run take moves).Heeds ms := by
  induction moves generalizing s with
  | nil => exact hh
  | cons m rest ih => exact ih (hh.advance h take m) (h.advance take m)

end Heeds

theorem signalled_work (take : μ → Action σ ε Unit) (s : WorkerLoop σ ε μ) :
    (s.work take).signalled = s.signalled := by
  rw [work]
  split
  · generalize s.bus.receive s.subscription = r
    obtain ⟨_ | _ | _, b⟩ := r <;> rfl
  · rfl
  · rfl
  · generalize s.bus.next? s.subscription = r
    obtain ⟨_ | _, b⟩ := r <;> rfl
  · rfl
  · rfl

/-- Nobody has been told to stop before the signal. -/
theorem signalled_run (take : μ → Action σ ε Unit) (moves : List (Move σ μ)) (s : WorkerLoop σ ε μ)
    (hm : .signal ∉ moves) : (s.run take moves).signalled = s.signalled := by
  induction moves generalizing s with
  | nil => rfl
  | cons m rest ih =>
    have hne : m ≠ .signal := fun h => hm (h ▸ List.mem_cons_self)
    refine (ih (s.advance take m) fun h => hm (List.mem_cons_of_mem _ h)).trans ?_
    cases m with
    | work => exact signalled_work take s
    | signal => exact absurd rfl hne
    | others o =>
      rw [advance]
      split
      · rfl
      · split <;> rfl
    | meanwhile f => rfl

/-! ## What the listener is handed -/

/-- A move hands nothing over, or it is the step in which the listener is done with the message in hand: what
becomes of that, and of what the listener works on, is what the listener makes of them. -/
theorem handled_advance (take : μ → Action σ ε Unit) (s : WorkerLoop σ ε μ) (m : Move σ μ) :
    (s.advance take m).handled = s.handled ∨ ∃ k seen, m = .work ∧ s.position = .handling k.1 seen ∧
      (take k.1).run s.surroundings = (k.2, (s.work take).surroundings) ∧
        (s.advance take m).handled = s.handled ++ [k] := by
  cases m with
  | work =>
    rw [advance]
    cases hp : s.position with
    | handling m seen =>
      refine .inr ⟨(m, ((take m).run s.surroundings).1), seen, rfl, rfl, ?_, ?_⟩ <;> rw [work, hp]
    | polling =>
      left
      rw [work, hp]
      generalize s.bus.receive s.subscription = r
      obtain ⟨_ | _ | _, b⟩ := r <;> rfl
    | flushing =>
      left
      rw [work, hp]
      generalize s.bus.next? s.subscription = r
      obtain ⟨_ | _, b⟩ := r <;> rfl
    | asking | leaving =>
      left
      rw [work, hp]
      rfl
    | left =>
      left
      rw [work, hp]
  | signal | meanwhile => exact .inl rfl
  | others o =>
    left
    rw [advance]
    split
    · rfl
    · split <;> rfl

theorem handled_run (take : μ → Action σ ε Unit) (moves : List (Move σ μ)) (s : WorkerLoop σ ε μ) :
    s.handled <+: (s.run take moves).handled := by
  induction moves generalizing s with
  | nil => exact List.prefix_rfl
  | cons m rest ih =>
    refine List.IsPrefix.trans ?_ (ih (s.advance take m))
    obtain hsame | ⟨k, _, _, _, _, hmore⟩ := handled_advance take s m
    · exact hsame ▸ List.prefix_rfl
    · exact hmore ▸ List.prefix_append ..

/-- Each message that was handed over was handed over in a step of its own, behind those before it. -/
theorem exists_of_handled {take : μ → Action σ ε Unit} {moves : List (Move σ μ)} {s : WorkerLoop σ ε μ}
    {begun ended : List (μ × Outcome ε Unit)} {k : μ × Outcome ε Unit}
    (h : (s.run take moves).handled = begun ++ k :: ended) (hs : s.handled.length ≤ begun.length) :
    ∃ first rest seen, moves = first ++ .work :: rest ∧ (s.run take first).handled = begun ∧
      (s.run take first).position = .handling k.1 seen ∧
      (take k.1).run (s.run take first).surroundings =
        (k.2, ((s.run take first).work take).surroundings) := by
  induction moves generalizing s with
  | nil =>
    have hlength := congrArg List.length (show s.handled = begun ++ k :: ended from h)
    rw [List.length_append, List.length_cons] at hlength
    omega
  | cons m rest ih =>
    by_cases ht : (s.advance take m).handled.length ≤ begun.length
    · obtain ⟨first, rest', seen, rfl, hrest⟩ := ih h ht
      exact ⟨m :: first, rest', seen, rfl, hrest⟩
    · obtain hsame | ⟨k', seen, rfl, hp, hrun, hmore⟩ := handled_advance take s m
      · exact absurd (hsame ▸ hs) ht
      -- This is the step: it adds one entry, behind as many as stand before `k`.
      · have hbegins : s.handled ++ [k'] <+: begun ++ k :: ended :=
          hmore ▸ h ▸ handled_run take rest (s.advance take .work)
        rw [hmore, List.length_append, List.length_singleton] at ht
        have hlength : s.handled.length = begun.length := by omega
        obtain ⟨more, hmore⟩ := hbegins
        rw [List.append_assoc] at hmore
        obtain ⟨rfl, hcons⟩ := List.append_inj hmore hlength
        cases hcons
        exact ⟨[], rest, seen, rfl, rfl, hp, hrun⟩

/-! ## What the listener answers -/

/-- Two workers are at the same place with the same bus, and have delivered the same. -/
structure Alike (s t : WorkerLoop σ ε μ) : Prop where
  subscription : s.subscription = t.subscription
  bus : s.bus = t.bus
  history : s.history = t.history
  position : s.position = t.position
  signalled : s.signalled = t.signalled
  delivered : s.delivered = t.delivered

/-- A listener returns from every message, whatever it works on. -/
def Returns (take : μ → Action σ ε Unit) : Prop := ∀ m e, ((take m).run e).1 ≠ .crashed

namespace Alike

variable {other : μ → Action σ ε Unit}

theorem work (h : s.Alike t) (ht : Returns take) (ho : Returns other) :
    (s.work take).Alike (t.work other) := by
  obtain ⟨id, bus, history, position, signalled, handled, around⟩ := s
  obtain ⟨id', bus', history', position', signalled', handled', around'⟩ := t
  obtain ⟨rfl, rfl, rfl, rfl, rfl, hd⟩ := h
  simp only [WorkerLoop.work]
  cases position with
  | polling =>
    generalize bus.receive id = r
    obtain ⟨_ | _ | _, b⟩ := r <;> exact ⟨rfl, rfl, rfl, rfl, rfl, hd⟩
  | handling m seen =>
    refine ⟨rfl, rfl, rfl, ?_, rfl, ?_⟩
    · change Position.after seen ((take m).run around).1 = Position.after seen ((other m).run around').1
      rw [Position.after_of_returned (ht m around), Position.after_of_returned (ho m around')]
    · have hd : handled.map Prod.fst = handled'.map Prod.fst := hd
      change (handled ++ _).map Prod.fst = (handled' ++ _).map Prod.fst
      rw [List.map_append, List.map_append, hd]
      rfl
  | asking => exact ⟨rfl, rfl, rfl, rfl, rfl, hd⟩
  | flushing =>
    generalize bus.next? id = r
    obtain ⟨_ | _, b⟩ := r <;> exact ⟨rfl, rfl, rfl, rfl, rfl, hd⟩
  | leaving | left => exact ⟨rfl, rfl, rfl, rfl, rfl, hd⟩

theorem advance (h : s.Alike t) (ht : Returns take) (ho : Returns other) (m : Move σ μ) :
    (s.advance take m).Alike (t.advance other m) := by
  cases m with
  | work => exact h.work ht ho
  | signal => exact ⟨h.subscription, h.bus, h.history, h.position, rfl, h.delivered⟩
  | others o =>
    simp only [WorkerLoop.advance, h.subscription, h.bus]
    split
    · exact h
    · split
      · refine ⟨h.subscription, rfl, ?_, h.position, h.signalled, h.delivered⟩
        simp only [did, h.history]
      · exact h
  | meanwhile f => exact ⟨h.subscription, h.bus, h.history, h.position, h.signalled, h.delivered⟩

theorem run (h : s.Alike t) (ht : Returns take) (ho : Returns other) (moves : List (Move σ μ)) :
    (s.run take moves).Alike (t.run other moves) := by
  induction moves generalizing s t with
  | nil => exact h
  | cons m rest ih => exact ih (h.advance ht ho m)

end Alike

/-- A worker whose listener returns is not ended by a crash. -/
theorem endedBy_works (hw : s.Works take t) (ht : Returns take)
    (h : s.position.endedBy ≠ some .crashed) : t.position.endedBy ≠ some .crashed := by
  cases hw with
  | took _ _ _ _ hends =>
    intro he
    rcases (hends _ he).2 with hw | ⟨hw, -⟩ <;> nomatch hw
  | @handled m seen o e hp ho =>
    exact fun he => ht m s.surroundings (ho ▸ (Position.endedBy_after he).1)
  | looked => cases s.signalled <;> nofun
  | left hp => exact fun he => h (hp ▸ he)
  | rested => exact h

theorem endedBy_run (h : s.InOrder) (ht : Returns take) (hs : s.position.endedBy ≠ some .crashed)
    (moves : List (Move σ μ)) : (s.run take moves).position.endedBy ≠ some .crashed := by
  induction moves generalizing s with
  | nil => exact hs
  | cons m rest ih =>
    refine ih (h.advance take m) ?_
    cases m with
    | work => exact endedBy_works (works_work take h.live) ht hs
    | signal | meanwhile => exact hs
    | others o =>
      rw [advance]
      split
      · exact hs
      · split <;> exact hs

/-- What a worker has handed over is at every moment a beginning of what was published for it, in order
and each message once. A worker that stopped because it was told to has handed over everything that was
published before it was told; one that stopped because the bus was closed, everything. As long as its
listener returns, a worker stops for no other reason, and what the listener answers does not change what
it is handed. Each message that was handed over was in hand in one step, in which the listener was run on what
it found then; how that ended is what is written down. -/
theorem workers_deliver_in_order (take : μ → Action σ ε Unit) (before : List (Operation μ)) (e : σ)
    (moves : List (Move σ μ)) :
    let s := (spawn before e).run take moves
    s.delivered ++ s.position.inHand <+: s.due ∧
    (s.position.endedBy = some .signalled → ∃ first rest, moves = first ++ .signal :: rest ∧
      .signal ∉ first ∧ ((spawn before e).run take first).due <+: s.delivered) ∧
    (s.position.endedBy = some .closed → s.delivered = s.due) ∧
    (Returns take → s.position.endedBy ≠ some .crashed ∧
      ∀ other : μ → Action σ ε Unit, Returns other → ((spawn before e).run other moves).delivered = s.delivered) ∧
    ∀ begun k ended, s.handled = begun ++ k :: ended → ∃ first rest seen, moves = first ++ .work :: rest ∧
      let u := (spawn before e).run take first
      u.handled = begun ∧ u.position = .handling k.1 seen ∧
        (take k.1).run u.surroundings = (k.2, (u.work take).surroundings) := by
  intro s
  have hstart : (spawn before e : WorkerLoop σ ε μ).InOrder := .spawn before e
  have h : s.InOrder := hstart.run take moves
  refine ⟨h.taken ▸ h.in_order, fun he => ?_, fun he => (h.complete he).1, fun ht =>
    ⟨endedBy_run hstart ht (fun he => nomatch he) moves, fun other ho => ?_⟩,
    fun begun k ended hk => exists_of_handled hk (Nat.zero_le _)⟩
  · have hsent : .signal ∈ moves := by
      by_contra hm
      have htold : s.signalled = true := h.told (Position.hasSeenSignal_of_endedBy he)
      rw [signalled_run take moves _ hm] at htold
      nomatch htold
    obtain ⟨first, rest, rfl, hfirst⟩ := List.eq_append_cons_of_mem hsent
    have hbefore := hstart.run take first
    have hheeds : ((spawn before e).run take first).Heeds ((spawn before e).run take first).due := by
      refine ⟨List.prefix_rfl, fun he => ?_⟩
      have htold := hbefore.told (Position.hasSeenSignal_of_endedBy he)
      rw [signalled_run take first _ hfirst] at htold
      nomatch htold
    have hend := hheeds.run hbefore take (.signal :: rest)
    rw [← run_append] at hend
    exact ⟨first, rest, rfl, hfirst, hend.delivered he⟩
  · have hsame : (spawn before e : WorkerLoop σ ε μ).Alike (spawn before e) := ⟨rfl, rfl, rfl, rfl, rfl, rfl⟩
    exact (hsame.run ho ht moves).delivered

/-- A listener that fails with every second message. -/
def fickle (m : Nat) : Action Unit String Unit := if m % 2 = 0 then Action.fail "even" else pure ()

theorem returns_fickle : Returns fickle := fun m e => by
  rw [fickle]
  split <;> nofun

def patient (_ : Nat) : Action Unit String Unit := pure ()

/-- The worker is told to stop while a message waits; another one comes while it hands that over, and one
comes too late. -/
def signalledRun : List (Move Unit Nat) :=
  [.others (.publish 1), .others (.publish 2), .work, .work, .signal, .work, .others (.publish 3), .work,
    .work, .work, .work, .work, .others (.publish 4), .work]

/-- The bus is closed while a message is in hand and another one waits. -/
def closingRun : List (Move Unit Nat) :=
  [.others (.publish 1), .others (.publish 2), .work, .others .close, .others (.publish 3), .work, .work,
    .work, .work, .work, .work]

/-- Told to stop, the worker hands over what it finds queued and leaves the late message; where the bus
was closed, it hands over all that it was due. A listener that takes every message is handed the same. The
listener has failed with the second message when it had returned from the first. -/
theorem late_message_is_left :
    let s := (spawn [] ()).run fickle signalledRun
    let t := (spawn [] ()).run fickle closingRun
    s.position.endedBy = some .signalled ∧ s.delivered = [1, 2, 3] ∧ s.due = [1, 2, 3, 4] ∧
      s.delivered ++ s.position.inHand <+: s.due ∧
      (∃ first rest, signalledRun = first ++ .signal :: rest ∧ .signal ∉ first ∧
        ((spawn [] ()).run fickle first).due <+: s.delivered) ∧
      t.position.endedBy = some .closed ∧ t.delivered = t.due ∧ t.due = [1, 2] ∧
      ((spawn [] ()).run patient signalledRun).delivered = s.delivered ∧
      s.handled = [(1, .done ()), (2, .failed "even"), (3, .done ())] ∧
      ∃ first rest seen, signalledRun = first ++ .work :: rest ∧
        ((spawn [] ()).run fickle first).handled = [(1, .done ())] ∧
        ((spawn [] ()).run fickle first).position = .handling 2 seen ∧
        ((fickle 2).run ((spawn [] ()).run fickle first).surroundings).1 = .failed "even" := by
  intro s t
  obtain ⟨hbegins, hsignalled, -, hreturns, hhandled⟩ := workers_deliver_in_order fickle [] () signalledRun
  obtain ⟨-, -, hclosed, -, -⟩ := workers_deliver_in_order fickle [] () closingRun
  have hs : s.position.endedBy = some .signalled := by decide
  have ht : t.position.endedBy = some .closed := by decide
  have hall : s.handled = [(1, .done ())] ++ (2, .failed "even") :: [(3, .done ())] := by decide
  obtain ⟨first, rest, seen, hmoves, hbegun, hposition, hrun⟩ := hhandled _ _ _ hall
  exact ⟨hs, by decide, by decide, hbegins, hsignalled hs, ht, hclosed ht, by decide,
    (hreturns returns_fickle).2 patient fun _ _ => nofun, hall, first, rest, seen, hmoves, hbegun, hposition,
    congrArg Prod.fst hrun⟩

end WorkerLoop
end SessionTrail

import SessionTrail.Proofs.Calm

/-!
# Mail

What workers take from their queues, turn by turn. The events that a worker took and those that still
wait for it are, in this order, the events that waited before. Only a crash loses some of them: those
that waited for the worker whose listener crashed.
-/
namespace SessionTrail

/-- The breadcrumbs that a listener leaves of an event. -/
def Listener.crumbs (l : Listener) (now : Timestamp) (e : Event) : List Breadcrumb :=
  match l.behaviour, e.note with
  | .trail _, .ok (some note) => [note.crumb now]
  | _, _ => []

/-- The breadcrumbs that come of an event that a worker of a session took. -/
def Session.crumbs (x : Session) (now : Timestamp) (k : Handled) : List Breadcrumb :=
  ((x.workers.find? (·.number = k.worker)).map fun v => v.listener.crumbs now k.event).getD []

/-- What a worker was handed, and what became of it. -/
def handledBy (number : Nat) (handled : List Handled) : List (Event × Outcome HandlingError Unit) :=
  (handled.filter (·.worker = number)).map fun k => (k.event, k.result)

theorem handledBy_append (number : Nat) (first others : List Handled) :
    handledBy number (first ++ others) = handledBy number first ++ handledBy number others := by
  simp only [handledBy, List.filter_append, List.map_append]

theorem handledBy_singleton_self (number : Nat) (e : Event) (r : Outcome HandlingError Unit) :
    handledBy number [⟨number, e, r⟩] = [(e, r)] := by
  simp [handledBy]

theorem handledBy_singleton_of_ne {number other : Nat} (h : number ≠ other) (e : Event)
    (r : Outcome HandlingError Unit) : handledBy other [⟨number, e, r⟩] = [] := by
  simp [handledBy, h]

theorem handledBy_of_own {number other : Nat} {handled : List Handled}
    (h : ∀ k ∈ handled, k.worker = number) (hne : number ≠ other) : handledBy other handled = [] := by
  rw [handledBy, List.map_eq_nil_iff, List.filter_eq_nil_iff]
  intro k hk he
  exact hne ((h k hk).symm.trans (of_decide_eq_true he))

/-- The events that a worker took. -/
def eventsOf (number : Nat) (handled : List Handled) : List Event :=
  (handledBy number handled).map Prod.fst

/-- What becomes of a queue, to which some events are added: the listener is handed them in order, and
what it was not handed is left. One that crashes is handed nothing more, and its queue is lost; so is the
one that is gone already. -/
inductive Hearing : Option (List Event) → List Event → List (Event × Outcome HandlingError Unit) →
    Option (List Event) → Prop where
  | heard {queue due rest : List Event} {handled : List (Event × Outcome HandlingError Unit)}
      (all : handled.map Prod.fst ++ rest = queue ++ due) (returned : ∀ k ∈ handled, k.2 ≠ .crashed) :
      Hearing (some queue) due handled (some rest)
  | crashed {queue due : List Event} {handled : List (Event × Outcome HandlingError Unit)} {e : Event}
      (begins : handled.map Prod.fst ++ [e] <+: queue ++ due) (returned : ∀ k ∈ handled, k.2 ≠ .crashed) :
      Hearing (some queue) due (handled ++ [(e, .crashed)]) none
  | gone {due : List Event} : Hearing none due [] none

namespace Hearing

variable {a b c : Option (List Event)} {due more : List Event}
  {first others : List (Event × Outcome HandlingError Unit)}

theorem refl (queue : Option (List Event)) : Hearing queue [] [] queue := by
  cases queue with
  | none => exact .gone
  | some queue => exact @heard queue [] queue [] (List.append_nil queue).symm fun _ hk => nomatch hk

theorem trans (h : Hearing a due first b) (h' : Hearing b more others c) :
    Hearing a (due ++ more) (first ++ others) c := by
  cases h with
  | @heard queue _ rest _ all returned =>
    have hsplit : ∀ es, first.map Prod.fst ++ (rest ++ es) = queue ++ (due ++ es) := fun es => by
      rw [← List.append_assoc, all, List.append_assoc]
    cases h' with
    | heard all' returned' =>
      refine .heard ?_ fun k hk => (List.mem_append.mp hk).elim (returned k) (returned' k)
      rw [List.map_append, List.append_assoc, all', hsplit]
    | crashed begins returned' =>
      rw [← List.append_assoc]
      refine .crashed ?_ fun k hk => (List.mem_append.mp hk).elim (returned k) (returned' k)
      rw [List.map_append, List.append_assoc, ← hsplit]
      exact (List.prefix_append_right_inj _).mpr begins
  | crashed begins returned =>
    cases h'
    rw [List.append_nil]
    refine .crashed ?_ returned
    rw [← List.append_assoc]
    exact begins.trans (List.prefix_append _ _)
  | gone =>
    cases h'
    exact .gone

/-- Without a crash everything is handed over or left, and the queue is there as before. -/
theorem of_returned (h : Hearing a due first b) (hr : ∀ k ∈ first, k.2 ≠ .crashed) (ha : a.isSome) :
    first.map Prod.fst ++ b.getD [] = a.getD [] ++ due ∧ b.isSome := by
  cases h with
  | heard all returned => exact ⟨all, rfl⟩
  | crashed => exact absurd rfl (hr _ (List.mem_append_right _ (List.mem_singleton_self _)))
  | gone => cases ha

/-- Where nothing is added and nothing crashes, all that was queued is handed over or left. -/
theorem exact (h : Hearing a [] first b) (hr : ∀ k ∈ first, k.2 ≠ .crashed) :
    first.map Prod.fst ++ b.getD [] = a.getD [] ∧ b.isSome = a.isSome := by
  cases a with
  | none =>
    cases h
    exact ⟨rfl, rfl⟩
  | some queue =>
    obtain ⟨hall, hsome⟩ := h.of_returned hr rfl
    rw [List.append_nil] at hall
    exact ⟨hall, hsome⟩

theorem sublist (h : Hearing a due first b) :
    (first.map Prod.fst ++ b.getD []).Sublist (a.getD [] ++ due) := by
  cases h with
  | heard all returned => exact all ▸ List.Sublist.refl _
  | crashed begins returned =>
    rw [List.map_append, Option.getD_none, List.append_nil]
    exact begins.sublist
  | gone => exact List.nil_sublist _

end Hearing

namespace Session

/-- The workers of a session are told apart by their numbers and by their subscriptions, and neither is
ever given again. -/
structure Wired (x : Session) : Prop where
  ascending : x.workers.Pairwise fun u v =>
    u.number < v.number ∧ u.subscription.val < v.subscription.val
  bounded : ∀ w ∈ x.workers, w.number < x.added ∧ w.subscription.val < x.bus.made
  attached_nodup : x.bus.attached.Nodup
  attached_lt : ∀ a ∈ x.bus.attached, a.val < x.bus.made

/-- Every worker of a session is served, unless the session has stopped. -/
def Connected (x : Session) : Prop :=
  ∀ w ∈ x.workers, x.bus.isLive w.subscription = true ∧
    (x.stopped = false → w.subscription ∈ x.bus.attached)

theorem pairwise_inj {α : Type} {f : α → Nat} {l : List α} (h : l.Pairwise fun u v => f u < f v)
    {u v : α} (hu : u ∈ l) (hv : v ∈ l) (he : f u = f v) : u = v := by
  induction l with
  | nil => cases hu
  | cons w rest ih =>
    obtain ⟨hw, hr⟩ := List.pairwise_cons.mp h
    rcases List.mem_cons.mp hu with rfl | hur
    · rcases List.mem_cons.mp hv with rfl | hvr
      · rfl
      · exact absurd he (Nat.ne_of_lt (hw v hvr))
    · rcases List.mem_cons.mp hv with rfl | hvr
      · exact absurd he.symm (Nat.ne_of_lt (hw u hur))
      · exact ih hr hur hvr

theorem Wired.number_inj {x : Session} (h : x.Wired) {u v : Worker} (hu : u ∈ x.workers)
    (hv : v ∈ x.workers) (he : u.number = v.number) : u = v :=
  pairwise_inj (h.ascending.imp And.left) hu hv he

theorem Wired.subscription_inj {x : Session} (h : x.Wired) {u v : Worker} (hu : u ∈ x.workers)
    (hv : v ∈ x.workers) (he : u.subscription = v.subscription) : u = v :=
  pairwise_inj (h.ascending.imp And.right) hu hv (congrArg SubscriptionId.val he)

theorem Wired.find?_number {x : Session} (h : x.Wired) {v : Worker} (hv : v ∈ x.workers) :
    x.workers.find? (·.number = v.number) = some v := by
  cases hf : x.workers.find? (·.number = v.number) with
  | none =>
    have hn := List.find?_eq_none.mp hf v hv
    simp at hn
  | some u =>
    have hu := List.find?_some hf
    simp only [decide_eq_true_eq] at hu
    rw [h.number_inj (List.mem_of_find?_eq_some hf) hv hu]

/-- Some deliveries of a session: what its workers took and what is left for them. -/
structure Delivers (x y : Session) (handled : List Handled) : Prop where
  outline_eq : y.outline = x.outline
  attached_eq : y.bus.attached = x.bus.attached
  made_eq : y.bus.made = x.bus.made
  known : ∀ k ∈ handled, ∃ v ∈ x.workers, v.number = k.worker
  hears : ∀ v ∈ x.workers, Hearing (x.bus.queues.get? v.subscription) []
    (handledBy v.number handled) (y.bus.queues.get? v.subscription)

namespace Delivers

variable {x y z : Session} {first others : List Handled}

theorem workers_eq (h : x.Delivers y first) : y.workers = x.workers :=
  (congrArg Session.workers h.outline_eq :)

theorem wired (h : x.Delivers y first) (hx : x.Wired) : y.Wired := by
  have ha : y.added = x.added := (congrArg Session.added h.outline_eq :)
  constructor
  · rw [h.workers_eq]
    exact hx.ascending
  · intro w hw
    rw [ha, h.made_eq]
    rw [h.workers_eq] at hw
    exact hx.bounded w hw
  · rw [h.attached_eq]
    exact hx.attached_nodup
  · intro a hm
    rw [h.made_eq]
    rw [h.attached_eq] at hm
    exact hx.attached_lt a hm

theorem refl (x : Session) : x.Delivers x [] :=
  ⟨rfl, rfl, rfl, fun _ hk => (nomatch hk), fun _ _ => .refl _⟩

theorem trans (h : x.Delivers y first) (h' : y.Delivers z others) :
    x.Delivers z (first ++ others) := by
  constructor
  · exact h'.outline_eq.trans h.outline_eq
  · exact h'.attached_eq.trans h.attached_eq
  · exact h'.made_eq.trans h.made_eq
  · intro k hk
    rcases List.mem_append.mp hk with hk | hk
    · exact h.known k hk
    · rw [← h.workers_eq]
      exact h'.known k hk
  · intro v hv
    rw [handledBy_append]
    exact (h.hears v hv).trans (h'.hears v (h.workers_eq ▸ hv))

theorem of_core_eq {x' : Session} (h : x'.Delivers y first) (hc : x'.core = x.core) :
    x.Delivers y first := by
  have hb : x'.bus = x.bus := (congrArg Session.bus hc :)
  have hw : x'.workers = x.workers := (congrArg Session.workers hc :)
  constructor
  · exact h.outline_eq.trans (congrArg Session.outline hc :)
  · rw [← hb]
    exact h.attached_eq
  · rw [← hb]
    exact h.made_eq
  · rw [← hw]
    exact h.known
  · rw [← hw, ← hb]
    exact h.hears

theorem mail (h : x.Delivers y first) {v : Worker} (hv : v ∈ x.workers) :
    (eventsOf v.number first ++ y.bus.queue v.subscription).Sublist (x.bus.queue v.subscription) := by
  have hs := (h.hears v hv).sublist
  rw [List.append_nil] at hs
  exact hs

theorem exact (h : x.Delivers y first) (hc : ∀ k ∈ first, k.result ≠ .crashed) {v : Worker}
    (hv : v ∈ x.workers) :
    eventsOf v.number first ++ y.bus.queue v.subscription = x.bus.queue v.subscription ∧
      y.bus.isLive v.subscription = x.bus.isLive v.subscription := by
  have hreturned : ∀ k ∈ handledBy v.number first, k.2 ≠ .crashed := fun k hk => by
    obtain ⟨l, hl, rfl⟩ := List.mem_map.mp hk
    exact hc l (List.mem_filter.mp hl).1
  rw [Bus.isLive_eq_isSome, Bus.isLive_eq_isSome]
  exact (h.hears v hv).exact hreturned

/-- A worker that is handed nothing keeps what is queued for it. -/
theorem queue_eq (h : x.Delivers y first) {v : Worker} (hv : v ∈ x.workers)
    (hnone : handledBy v.number first = []) : y.bus.queue v.subscription = x.bus.queue v.subscription := by
  have hears := h.hears v hv
  rw [hnone] at hears
  exact (hears.exact fun k hk => by cases hk).1

/-- Without a crash of its listener, a worker that has nothing left was handed all that was queued for it. -/
theorem drained (h : x.Delivers y first) {v : Worker} (hv : v ∈ x.workers)
    (hr : ∀ k ∈ handledBy v.number first, k.2 ≠ .crashed) (hempty : y.bus.queue v.subscription = []) :
    eventsOf v.number first = x.bus.queue v.subscription := by
  have hall := ((h.hears v hv).exact hr).1
  rw [show (y.bus.queues.get? v.subscription).getD [] = [] from hempty, List.append_nil] at hall
  exact hall

theorem queue_length_le (h : x.Delivers y first) {v : Worker} (hv : v ∈ x.workers) :
    (y.bus.queue v.subscription).length ≤ (x.bus.queue v.subscription).length :=
  ((List.sublist_append_right _ _).trans (h.mail hv)).length_le

end Delivers

/-! ## One turn -/

/-- A session whose worker has taken the first event of its queue. -/
def afterTurn (x : Session) (v : Worker) (rest : List Event) (crashed : Bool) : Session :=
  let y := x.withBus { x.bus with queues := x.bus.queues.set v.subscription rest }
  if crashed then y.silence v else y

theorem get?_afterTurn_self (x : Session) (v : Worker) (rest : List Event) (crashed : Bool) :
    (x.afterTurn v rest crashed).bus.queues.get? v.subscription = if crashed then none else some rest := by
  cases crashed with
  | false => exact Table.get?_set_self ..
  | true => exact (Table.get?_erase ..).trans (if_pos rfl)

theorem queue_afterTurn_self (x : Session) (v : Worker) (rest : List Event) (crashed : Bool) :
    (x.afterTurn v rest crashed).bus.queue v.subscription = if crashed then [] else rest := by
  rw [Bus.queue, get?_afterTurn_self]
  cases crashed <;> rfl

theorem get?_afterTurn_of_ne (x : Session) (v : Worker) (rest : List Event) (crashed : Bool)
    {sub : SubscriptionId} (h : sub ≠ v.subscription) :
    (x.afterTurn v rest crashed).bus.queues.get? sub = x.bus.queues.get? sub := by
  cases crashed with
  | false => exact Table.get?_set_of_ne _ _ h
  | true =>
    simp only [afterTurn, withBus, silence, Bus.drop, if_true, Table.get?_erase, if_neg h]
    exact Table.get?_set_of_ne _ _ h

theorem delivers_afterTurn {x y : Session} {v : Worker} {e : Event} {rest : List Event}
    {r : Outcome HandlingError Unit} (hx : x.Wired) (hv : v ∈ x.workers)
    (hq : x.bus.queue v.subscription = e :: rest)
    (hy : y.core = (x.afterTurn v rest (r = .crashed)).core) :
    x.Delivers y [⟨v.number, e, r⟩] := by
  have hb : y.bus = (x.afterTurn v rest (r = .crashed)).bus := (congrArg Session.bus hy :)
  have hne : ∀ u ∈ x.workers, u ≠ v →
      v.number ≠ u.number ∧ u.subscription ≠ v.subscription := fun u hu hn =>
    ⟨fun he => hn (hx.number_inj hv hu he).symm, fun he => hn (hx.subscription_inj hu hv he)⟩
  have hlive : x.bus.queues.get? v.subscription = some (e :: rest) := by
    cases hg : x.bus.queues.get? v.subscription with
    | none => simp [Bus.queue, hg] at hq
    | some q => rw [← hq, Bus.queue, hg, Option.getD_some]
  refine ⟨?_, ?_, ?_, fun k hk => ⟨v, hv, ?_⟩, fun u hu => ?_⟩
  · have ho : y.outline = (x.afterTurn v rest (r = .crashed)).outline :=
      (congrArg Session.outline hy :)
    rw [ho]
    unfold afterTurn
    split <;> rfl
  · rw [hb]
    unfold afterTurn
    split <;> rfl
  · rw [hb]
    unfold afterTurn
    split <;> rfl
  · rw [List.mem_singleton.mp hk]
  · by_cases hn : u = v
    · rw [hn, hlive, handledBy_singleton_self, hb, get?_afterTurn_self]
      by_cases hr : r = .crashed
      · subst hr
        exact @Hearing.crashed (e :: rest) [] [] e ⟨rest, (List.append_nil _).symm⟩ fun _ hk => by cases hk
      · simp only [hr, decide_false, Bool.false_eq_true, if_false]
        exact .heard (List.append_nil _).symm fun k hk => List.mem_singleton.mp hk ▸ hr
    · -- The queue of another worker belongs to another subscription.
      obtain ⟨hnum, hsub⟩ := hne u hu hn
      rw [handledBy_singleton_of_ne hnum, hb, get?_afterTurn_of_ne x v rest _ hsub]
      exact .refl _

end Session

namespace Program

/-! ## Listeners do not crash by themselves -/

theorem calm_of_bare_eq {s t : Program} (h : s.Calm) (hc : t.bare = s.bare) : t.Calm :=
  h.of_narrows (.of_outline_eq (outline_eq_of_bare_eq hc))

theorem calm_of_core_eq {s t : Program} (h : s.Calm) (hc : t.core = s.core) : t.Calm :=
  calm_of_bare_eq h (bare_eq_of_core_eq hc)

theorem writeIdentity_serves (keyPrefix : String) (id : Option SessionId) :
    (writeIdentity keyPrefix id).Serves Calm := by
  cases id with
  | none => exact Action.serves_pure _
  | some id =>
    intro s hs
    refine ⟨?_, calm_of_core_eq hs (writeIdentity_keeps_core keyPrefix (some id) s)⟩
    have hw : (writeIdentity keyPrefix (some id)).run s =
        (onSession id (Session.writeIdentity keyPrefix)).run s := rfl
    rw [hw]
    cases hx : s.session? id with
    | none =>
      rw [run_onSession_of_none hx]
      nofun
    | some x =>
      rw [run_onSession hx]
      exact (Session.writeIdentity_serves keyPrefix x (hs id x hx)).1

theorem refreshIdentity_serves (keyPrefix : String) : (refreshIdentity keyPrefix).Serves Calm := by
  intro s hs
  refine ⟨?_, calm_of_core_eq hs (refreshIdentity_keeps_core keyPrefix s)⟩
  have h := (writeIdentity_serves keyPrefix s.active s hs).1
  change (refreshIdentity keyPrefix s).1 ≠ .crashed
  unfold refreshIdentity
  rcases hr : (writeIdentity keyPrefix s.active).run s with ⟨_ | ⟨_ | _⟩ | _, t⟩ <;> rw [hr] at h
  · nofun
  · nofun
  · nofun
  · exact absurd rfl h

theorem trail_serves (keyPrefix : String) (e : Event) : (trail keyPrefix e).Serves Calm := by
  intro s hs
  refine ⟨?_, calm_of_bare_eq hs (trail_keeps_bare keyPrefix e s)⟩
  change (trail keyPrefix e s).1 ≠ .crashed
  unfold trail
  split
  · nofun
  · nofun
  · split
    · exact (refreshIdentity_serves keyPrefix _ (calm_of_bare_eq hs (leave_bare s _))).1
    · nofun

theorem notify_serves (l : Listener) (e : Event) : (notify l e).Serves Calm := by
  unfold notify
  split
  · exact Action.serves_pure _
  · exact trail_serves _ e
  · refine (Action.serves_modify fun s hs => calm_of_bare_eq hs (record_bare s _ _)).bind fun _ => ?_
    split
    · exact Action.serves_fail _
    · exact Action.serves_pure _

/-! ## Breadcrumbs -/

/-- From `s` to `t` the reporter gets some breadcrumbs, and no rule that it has not had. -/
structure Notes (s t : Program) (crumbs : List Breadcrumb) : Prop where
  retention_eq : t.reporter.retention = s.reporter.retention
  breadcrumbs_eq : t.reporter.breadcrumbs =
    crumbs.foldl (Reporter.pushWithin s.reporter.retention.breadcrumbLimit.toNat) s.reporter.breadcrumbs
  rules : ∀ p r, (p, Processor.rule r) ∈ t.reporter.processors →
    (p, Processor.rule r) ∈ s.reporter.processors

namespace Notes

variable {s t u : Program} {first rest : List Breadcrumb}

theorem of_reporter_eq (h : t.reporter = s.reporter) : Notes s t [] :=
  ⟨by rw [h], by rw [h]; rfl, fun p r hm => by rw [← h]; exact hm⟩

theorem of_core_eq (h : t.core = s.core) : Notes s t [] :=
  .of_reporter_eq (congrArg Program.reporter h :)

theorem trans (h : Notes s t first) (h' : Notes t u rest) : Notes s u (first ++ rest) :=
  ⟨h'.retention_eq.trans h.retention_eq, by
    rw [h'.breadcrumbs_eq, h.breadcrumbs_eq, h.retention_eq, List.foldl_append],
    fun p r hm => h.rules p r (h'.rules p r hm)⟩

theorem leave (s : Program) (crumb : Breadcrumb) : Notes s (s.leave crumb) [crumb] :=
  ⟨rfl, rfl, fun _ _ hm => hm⟩

end Notes

/-- Of every event a listener leaves what `Listener.crumbs` says, however it ends. -/
theorem notify_notes (l : Listener) (e : Event) (s : Program) :
    Notes s ((notify l e).run s).2 (l.crumbs s.now e) := by
  unfold notify Listener.crumbs
  cases l.behaviour with
  | silent => exact .of_reporter_eq rfl
  | recorder answers =>
    have hr : ∀ r : Outcome HandlingError Unit × Program, r.2 = s.record l.id e.kind →
        Notes s r.2 [] := fun r hr => by
      rw [hr]
      exact .of_reporter_eq rfl
    simp only
    refine hr _ ?_
    rw [Action.run_bind]
    simp only [Action.run_modify]
    cases answers.get? e.kind <;> rfl
  | trail keyPrefix =>
    have ht : (trail keyPrefix e).run s = trail keyPrefix e s := rfl
    simp only [ht, trail]
    rcases e.note with why | _ | note
    · exact .of_reporter_eq rfl
    · exact .of_reporter_eq rfl
    · simp only
      split
      · exact (Notes.leave s _).trans (.of_core_eq (refreshIdentity_keeps_core keyPrefix _))
      · exact .leave s _

/-! ## Turns, one after another -/

/-- What a turn leaves of the bare program: its session has a shorter queue, or none for a crashed
listener. -/
theorem turn_bare {id : SessionId} {v : Worker} {s : Program} {x : Session} {e : Event}
    {rest : List Event} (hx : s.session? id = some x) (hq : x.bus.queue v.subscription = e :: rest) :
    ∃ r, (turn id v s).1 = [⟨v.number, e, r⟩] ∧ (s.Calm → r ≠ .crashed) ∧
      Notes s (turn id v s).2 (v.listener.crumbs s.now e) ∧ (turn id v s).2.bare =
        (s.modifySession id fun y => y.withBus (x.afterTurn v rest (r = .crashed)).bus).bare := by
  have hrec : (x.bus.receive v.subscription).2 =
      { x.bus with queues := x.bus.queues.set v.subscription rest } := by
    simp only [Bus.receive, hq]
  rw [turn_of_queue hx hq, hrec]
  generalize hr : (notify v.listener e).run (s.modifySession id
    (·.withBus { x.bus with queues := x.bus.queues.set v.subscription rest })) = r
  have hk := notify_keeps_bare v.listener e (s.modifySession id
    (·.withBus { x.bus with queues := x.bus.queues.set v.subscription rest }))
  have hn := notify_notes v.listener e (s.modifySession id
    (·.withBus { x.bus with queues := x.bus.queues.set v.subscription rest }))
  rw [hr] at hk hn
  refine ⟨r.1, rfl, fun hs => ?_, ?_, ?_⟩
  · rw [← hr]
    have ho := outline_modifySession s id fun y =>
      y.withBus_outline { x.bus with queues := x.bus.queues.set v.subscription rest }
    exact (notify_serves v.listener e _ (hs.of_narrows (.of_outline_eq ho))).1
  · simp only
    split
    · exact ⟨hn.retention_eq, hn.breadcrumbs_eq, hn.rules⟩
    · exact ⟨hn.retention_eq, hn.breadcrumbs_eq, hn.rules⟩
  · by_cases hc : r.1 = .crashed
    · simp only [hc, if_true]
      have hbare : ∀ u : Program, (u.modifySession id (·.silence v)).bare =
          u.bare.modifySession id (·.silence v) := fun u => bare_modifySession u id fun _ => rfl
      rw [hbare, hk, ← hbare, modifySession_modifySession]
      rfl
    · simp only [hc, if_false]
      exact hk

/-- Deliveries of a session: every other session is as it was, at its core, and of its own only the
queues have changed. -/
structure Delivered (id : SessionId) (s t : Program) (handled : List Handled) : Prop where
  outline_eq : t.outline = s.outline
  others : ∀ id', id' ≠ id → (t.session? id').map Session.core = (s.session? id').map Session.core
  here : ∀ x, s.session? id = some x → ∃ y, t.session? id = some y ∧ x.Delivers y handled
  calm : s.Calm → ∀ k ∈ handled, k.result ≠ .crashed
  notes : ∀ x, s.session? id = some x → x.Wired → Notes s t (handled.flatMap (x.crumbs s.now))

namespace Delivered

variable {id : SessionId} {s t u : Program} {first rest : List Handled}

theorem refl (id : SessionId) (s : Program) : Delivered id s s [] :=
  ⟨rfl, fun _ _ => rfl, fun x hx => ⟨x, hx, .refl x⟩, fun _ _ hk => (nomatch hk),
    fun _ _ _ => .of_reporter_eq rfl⟩

theorem calm_next (h : Delivered id s t first) (hs : s.Calm) : t.Calm :=
  hs.of_narrows (.of_outline_eq h.outline_eq)

theorem trans (h : Delivered id s t first) (h' : Delivered id t u rest) :
    Delivered id s u (first ++ rest) := by
  constructor
  · exact h'.outline_eq.trans h.outline_eq
  · exact fun id' hne => (h'.others id' hne).trans (h.others id' hne)
  · intro x hx
    obtain ⟨y, hy, hxy⟩ := h.here x hx
    obtain ⟨z, hz, hyz⟩ := h'.here y hy
    exact ⟨z, hz, hxy.trans hyz⟩
  · intro hs k hk
    rcases List.mem_append.mp hk with hk | hk
    · exact h.calm hs k hk
    · exact h'.calm (h.calm_next hs) k hk
  · intro x hx hw
    obtain ⟨y, hy, hxy⟩ := h.here x hx
    have hn := h.notes x hx hw
    have hn' := h'.notes y hy (hxy.wired hw)
    have hnow : t.now = s.now := (congrArg Program.now h.outline_eq :)
    have hc : y.crumbs t.now = x.crumbs s.now := by
      funext k
      simp only [Session.crumbs, hxy.workers_eq, hnow]
    rw [hc] at hn'
    rw [List.flatMap_append]
    exact hn.trans hn'

end Delivered

section

variable {id : SessionId} {s : Program} {x : Session}

theorem turn_delivered (hx : s.session? id = some x) (hw : x.Wired) {v : Worker}
    (hv : v ∈ x.workers) :
    Delivered id s (turn id v s).2 (turn id v s).1 ∧
      ∀ y, (turn id v s).2.session? id = some y →
        (y.bus.queue v.subscription).length ≤ (x.bus.queue v.subscription).length - 1 := by
  cases hq : x.bus.queue v.subscription with
  | nil =>
    have ht : turn id v s = ([], s) := turn_of_empty fun y hy => by
      rw [hx] at hy
      cases hy
      exact hq
    rw [ht]
    refine ⟨.refl id s, fun y hy => ?_⟩
    rw [hx] at hy
    cases hy
    rw [hq]
    exact Nat.le_refl _
  | cons e rest =>
    obtain ⟨r, hh, hcalm, hnote, hc⟩ := turn_bare hx hq
    have hcore : ∀ y, (turn id v s).2.session? id = some y →
        y.core = (x.afterTurn v rest (r = .crashed)).core := by
      intro y hy
      obtain ⟨z, hz, hyz⟩ := session?_of_modifySession_core_eq (congrArg Program.sessions hc :) hy
      rw [hx] at hz
      cases hz
      rw [if_pos rfl] at hyz
      rw [hyz]
      unfold Session.afterTurn
      split <;> rfl
    refine ⟨⟨turn_outline id v s, fun id' hne => ?_, fun z hz => ?_, fun hs k hk => ?_,
      fun z hz _ => ?_⟩, fun y hy => ?_⟩
    · have hm := congrArg (fun u : Program => u.session? id') hc
      simp only [session?_bare] at hm
      rw [hm, session?_modifySession, if_neg hne]
    · rw [hx] at hz
      cases hz
      have hk := isSome_session?_of_map_eq (congrArg Program.sessions (turn_outline id v s) :) id
      rw [hx, Option.isSome_some] at hk
      obtain ⟨y, hy⟩ := Option.isSome_iff_exists.mp hk
      rw [hh]
      exact ⟨y, hy, Session.delivers_afterTurn hw hv hq (hcore y hy)⟩
    · rw [hh] at hk
      rw [List.mem_singleton.mp hk]
      exact hcalm hs
    · rw [hx] at hz
      cases hz
      have hcr : [(⟨v.number, e, r⟩ : Handled)].flatMap (x.crumbs s.now) =
          v.listener.crumbs s.now e := by
        simp only [List.flatMap_cons, List.flatMap_nil, List.append_nil, Session.crumbs,
          hw.find?_number hv, Option.map_some, Option.getD_some]
      rw [hh, hcr]
      exact hnote
    · have hb : y.bus = (x.afterTurn v rest (r = .crashed)).bus :=
        (congrArg Session.bus (hcore y hy) :)
      rw [hb, Session.queue_afterTurn_self]
      split
      · exact Nat.zero_le _
      · exact Nat.le_refl _

theorem round_delivered (hx : s.session? id = some x) (hw : x.Wired) (workers : List Worker)
    (hv : ∀ v ∈ workers, v ∈ x.workers) :
    Delivered id s (round id workers s).2 (round id workers s).1 ∧
      ∀ y, (round id workers s).2.session? id = some y → ∀ v ∈ workers,
        (y.bus.queue v.subscription).length ≤ (x.bus.queue v.subscription).length - 1 := by
  induction workers generalizing s x with
  | nil => exact ⟨.refl id s, fun _ _ _ hv => (nomatch hv)⟩
  | cons v rest ih =>
    obtain ⟨ht, hlen⟩ := turn_delivered hx hw (hv v List.mem_cons_self)
    obtain ⟨y, hy, hxy⟩ := ht.here x hx
    have hvr : ∀ u ∈ rest, u ∈ y.workers := fun u hu => by
      rw [hxy.workers_eq]
      exact hv u (List.mem_cons_of_mem _ hu)
    obtain ⟨hr, hlen'⟩ := ih hy (hxy.wired hw) hvr
    refine ⟨ht.trans hr, fun z hz u hu => ?_⟩
    obtain ⟨z', hz', hyz⟩ := hr.here y hy
    have he : z' = z := Option.some.inj (hz'.symm.trans hz)
    rw [he] at hyz
    rcases List.mem_cons.mp hu with rfl | hur
    · exact Nat.le_trans (hyz.queue_length_le (hxy.workers_eq ▸ hv u List.mem_cons_self)) (hlen y hy)
    · have h1 := hlen' z hz u hur
      have h2 := hxy.queue_length_le (hv u (List.mem_cons_of_mem _ hur))
      omega

theorem rounds_delivered (hx : s.session? id = some x) (hw : x.Wired) (workers : List Worker)
    (hv : ∀ v ∈ workers, v ∈ x.workers) (n : Nat) :
    Delivered id s (rounds id workers n s).2 (rounds id workers n s).1 ∧
      ∀ y, (rounds id workers n s).2.session? id = some y → ∀ v ∈ workers,
        (y.bus.queue v.subscription).length ≤ (x.bus.queue v.subscription).length - n := by
  induction n generalizing s x with
  | zero =>
    refine ⟨.refl id s, fun y hy v _ => ?_⟩
    have he : x = y := Option.some.inj (hx.symm.trans hy)
    rw [he]
    exact Nat.le_refl _
  | succ n ih =>
    obtain ⟨ht, hlen⟩ := round_delivered hx hw workers hv
    obtain ⟨y, hy, hxy⟩ := ht.here x hx
    have hvy : ∀ u ∈ workers, u ∈ y.workers := fun u hu => by
      rw [hxy.workers_eq]
      exact hv u hu
    obtain ⟨hr, hlen'⟩ := ih hy (hxy.wired hw) hvy
    refine ⟨ht.trans hr, fun z hz u hu => ?_⟩
    have h1 := hlen y hy u hu
    have h2 := hlen' z hz u hu
    omega

theorem queue_length_le_backlog (x : Session) (workers : List Worker) {v : Worker}
    (hv : v ∈ workers) : (x.bus.queue v.subscription).length ≤ backlog x workers := by
  have hmono : ∀ (ws : List Worker) (n : Nat),
      n ≤ ws.foldl (fun n w => max n (x.bus.queue w.subscription).length) n := by
    intro ws
    induction ws with
    | nil => exact fun n => Nat.le_refl n
    | cons w rest ih => exact fun n => Nat.le_trans (Nat.le_max_left _ _) (ih _)
  have hmem : ∀ (ws : List Worker) (n : Nat), v ∈ ws → (x.bus.queue v.subscription).length ≤
      ws.foldl (fun n w => max n (x.bus.queue w.subscription).length) n := by
    intro ws
    induction ws with
    | nil => exact fun n h => nomatch h
    | cons w rest ih =>
      intro n h
      rcases List.mem_cons.mp h with rfl | h
      · exact Nat.le_trans (Nat.le_max_right _ _) (hmono rest _)
      · exact ih _ h
  exact hmem workers 0 hv

/-- Workers that take all that is queued leave their queues empty. -/
theorem flush_delivered (hx : s.session? id = some x) (hw : x.Wired) (workers : List Worker)
    (hv : ∀ v ∈ workers, v ∈ x.workers) :
    Delivered id s (flush id workers s).2 (flush id workers s).1 ∧
      ∀ y, (flush id workers s).2.session? id = some y → ∀ v ∈ workers,
        y.bus.queue v.subscription = [] := by
  have hf : flush id workers s = rounds id workers (backlog x workers) s := by
    simp only [flush, hx]
  rw [hf]
  obtain ⟨hd, hlen⟩ := rounds_delivered hx hw workers hv (backlog x workers)
  refine ⟨hd, fun y hy v hvw => ?_⟩
  have h1 := hlen y hy v hvw
  have h2 := queue_length_le_backlog x workers hvw
  exact List.eq_nil_of_length_eq_zero (by omega)

end

end Program

end SessionTrail

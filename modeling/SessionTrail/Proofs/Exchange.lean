import SessionTrail.Proofs.Quiet

/-!
# What an installer's listener gets

An installer's listener at a session takes the events that were posted while it was attached. Operation
by operation: what it takes, and what waits for it then, is what waited for it before and what was posted.
-/
namespace SessionTrail

open Program World

/-- The events that an installer's listeners have taken from a session. -/
def taken (ds : List Delivery) (g : InstallerId) (id : SessionId) : List Event :=
  (ds.filter fun d => d.session = id ∧ d.worker.isOf g = true).map (·.event)

/-- What an installer's listeners were handed at a session, and what became of it. -/
def handedTo (ds : List Delivery) (g : InstallerId) (id : SessionId) :
    List (Event × Outcome HandlingError Unit) :=
  (ds.filter fun d => d.session = id ∧ d.worker.isOf g = true).map fun d => (d.event, d.result)

theorem taken_eq_map (ds : List Delivery) (g : InstallerId) (id : SessionId) :
    taken ds g id = (handedTo ds g id).map Prod.fst := by
  simp only [taken, handedTo, List.map_map]
  rfl

theorem handedTo_append (ds es : List Delivery) (g : InstallerId) (id : SessionId) :
    handedTo (ds ++ es) g id = handedTo ds g id ++ handedTo es g id := by
  simp only [handedTo, List.filter_append, List.map_append]

/-- The events that were posted to a session while a listener of an installer was attached. -/
def due (ps : List Posting) (g : InstallerId) (id : SessionId) : List Event :=
  (ps.filter fun p => p.session = id ∧ p.workers.any (·.isOf g) = true).map (·.event)

theorem taken_append (ds es : List Delivery) (g : InstallerId) (id : SessionId) :
    taken (ds ++ es) g id = taken ds g id ++ taken es g id := by
  simp only [taken, List.filter_append, List.map_append]

theorem due_singleton (p : Posting) (g : InstallerId) (id : SessionId) :
    due [p] g id = if p.session = id ∧ p.workers.any (·.isOf g) = true then [p.event] else [] := by
  simp only [due, List.filter_cons, List.filter_nil, decide_eq_true_eq]
  split <;> rfl

theorem due_append (ps qs : List Posting) (g : InstallerId) (id : SessionId) :
    due (ps ++ qs) g id = due ps g id ++ due qs g id := by
  simp only [due, List.filter_append, List.map_append]

/-- One list is what is left of another one, and all of it if nothing crashes. -/
structure Exchange (exact : Prop) (got owed : List Event) : Prop where
  sublist : got.Sublist owed
  eq : exact → got = owed

namespace Exchange

variable {exact : Prop}

theorem of_eq {got owed : List Event} (h : got = owed) : Exchange exact got owed :=
  ⟨h ▸ List.Sublist.refl _, fun _ => h⟩

theorem trans {taken₁ taken₂ before between after due₁ due₂ : List Event} {exact' : Prop}
    (h : Exchange exact (taken₁ ++ between) (before ++ due₁))
    (h' : Exchange exact' (taken₂ ++ after) (between ++ due₂)) (he : exact → exact') :
    Exchange exact ((taken₁ ++ taken₂) ++ after) (before ++ (due₁ ++ due₂)) := by
  constructor
  · rw [List.append_assoc, ← List.append_assoc before]
    exact (h'.sublist.append_left taken₁).trans
      (List.append_assoc taken₁ between due₂ ▸ h.sublist.append_right due₂)
  · intro hx
    rw [List.append_assoc, h'.eq (he hx), ← List.append_assoc, h.eq hx, List.append_assoc]

end Exchange

namespace Session

/-- At most one worker serves an installer's listener. -/
theorem own_cases {x : Session} {g : InstallerId} (h : x.attachedBy g ≤ 1) :
    (∀ w ∈ x.workers, w.isOf g = false) ∨
      ∃ c ∈ x.workers, c.isOf g = true ∧ x.workers.filter (·.isOf g) = [c] := by
  have hl : (x.workers.filter (·.isOf g)).length ≤ 1 := by
    rw [← List.countP_eq_length_filter]
    exact h
  rcases hf : x.workers.filter (·.isOf g) with _ | ⟨c, _ | ⟨d, rest⟩⟩
  · left
    intro w hw
    have hn := List.filter_eq_nil_iff.mp hf w hw
    simpa using hn
  · right
    have hc := List.mem_filter.mp (hf ▸ List.mem_singleton_self c : c ∈ x.workers.filter (·.isOf g))
    exact ⟨c, hc.1, hc.2, hf⟩
  · rw [hf] at hl
    simp at hl

theorem eq_of_isOf {x : Session} {g : InstallerId} {c v : Worker}
    (h : x.workers.filter (·.isOf g) = [c]) (hv : v ∈ x.workers) (ho : v.isOf g = true) : v = c := by
  have hm : v ∈ x.workers.filter (·.isOf g) := List.mem_filter.mpr ⟨hv, ho⟩
  rw [h] at hm
  exact List.mem_singleton.mp hm

/-! ## Posting -/

/-- A session to which an event was posted. -/
def posted (x : Session) (e : Event) : Session := x.withBus (x.bus.publish e).2

theorem posted_get? (x : Session) (hx : x.Wired) (e : Event) (sub : SubscriptionId) :
    (x.posted e).bus.queues.get? sub =
      (x.bus.queues.get? sub).map fun q => if sub ∈ x.bus.attached then q ++ [e] else q :=
  Bus.get?_publish x.bus hx.attached_nodup e sub

theorem Wired.posted {x : Session} (hx : x.Wired) (e : Event) : (x.posted e).Wired :=
  ⟨hx.ascending, hx.bounded, hx.attached_nodup.filter _,
    fun a ha => hx.attached_lt a (List.mem_filter.mp ha).1⟩

theorem Connected.posted {x : Session} (hw : x.Wired) (hx : x.Connected) (e : Event) :
    (x.posted e).Connected := by
  intro w hm
  obtain ⟨hl, ha⟩ := hx w hm
  constructor
  · rw [Bus.isLive, Table.contains, x.posted_get? hw e, Option.isSome_map]
    exact hl
  · exact fun hs => List.mem_filter.mpr ⟨ha hs, hl⟩

/-- What waits for an installer's listener when an event has been posted to a running session. -/
theorem exchange_posted {x : Session} {g : InstallerId} (hw : x.Wired) (hg : x.attachedBy g ≤ 1)
    (hs : x.stopped = false) (e : Event) :
    Exchange x.Connected ((x.posted e).pending g)
      (x.pending g ++ if x.workers.any (·.isOf g) then [e] else []) := by
  rcases own_cases hg with hnone | ⟨c, hc, ho, hf⟩
  · have hany : x.workers.any (·.isOf g) = false := List.any_eq_false.mpr fun w hm => by
      rw [hnone w hm]
      nofun
    refine .of_eq ?_
    rw [hany, pending_of_none hnone, pending_of_none (x := x.posted e) hnone]
    rfl
  · have hany : x.workers.any (·.isOf g) = true := List.any_eq_true.mpr ⟨c, hc, ho⟩
    rw [hany, pending_of_single hf, pending_of_single (x := x.posted e) hf]
    simp only [if_true, Bus.queue, x.posted_get? hw e]
    constructor
    · cases x.bus.queues.get? c.subscription with
      | none => exact List.nil_sublist _
      | some q =>
        simp only [Option.map_some, Option.getD_some]
        split
        · exact List.Sublist.refl _
        · exact List.sublist_append_left q [e]
    · intro hx
      obtain ⟨hl, ha⟩ := hx c hc
      rw [Bus.isLive, Table.contains] at hl
      obtain ⟨q, hq⟩ := Option.isSome_iff_exists.mp hl
      simp only [hq, Option.map_some, Option.getD_some, ha hs, if_true]

/-! ## Delivering -/

theorem Connected.delivers {x y : Session} {h : List Handled} (hx : x.Connected)
    (hd : x.Delivers y h) (hc : ∀ k ∈ h, k.result ≠ .crashed) : y.Connected := by
  intro w hm
  rw [hd.workers_eq] at hm
  obtain ⟨hl, ha⟩ := hx w hm
  rw [(hd.exact hc hm).2, hd.attached_eq,
    show y.stopped = x.stopped from (congrArg Session.stopped hd.outline_eq :)]
  exact ⟨hl, ha⟩

end Session

namespace World

theorem worker?_of_wired {w : World} {id : SessionId} {x : Session}
    (hx : w.program.session? id = some x) (hw : x.Wired) {v : Worker} (hv : v ∈ x.workers) :
    w.worker? id v.number = some v := by
  rw [worker?, hx, Option.bind_some]
  exact hw.find?_number hv

theorem deliveries_cons {w : World} {id : SessionId} {x : Session}
    (hx : w.program.session? id = some x) (hw : x.Wired) {v : Worker} (hv : v ∈ x.workers) {k : Handled}
    (hn : v.number = k.worker) (rest : List Handled) : w.deliveries id (k :: rest) =
      ⟨w.program.now, id, v, k.event, k.result⟩ :: w.deliveries id rest := by
  rw [deliveries, List.filterMap_cons, ← hn, worker?_of_wired hx hw hv]
  rfl

theorem handedTo_deliveries_of_ne (w : World) {id id' : SessionId} (h : List Handled) (g : InstallerId)
    (hne : id ≠ id') : handedTo (w.deliveries id h) g id' = [] := by
  have hf : (w.deliveries id h).filter
      (fun d => d.session = id' ∧ d.worker.isOf g = true) = [] := by
    refine List.filter_eq_nil_iff.mpr fun d hd => ?_
    obtain ⟨k, _, hk⟩ := List.mem_filterMap.mp hd
    obtain ⟨v, _, rfl⟩ := Option.map_eq_some_iff.mp hk
    simp [hne]
  rw [handedTo, hf, List.map_nil]

/-- The deliveries to an installer's listener are what its one worker handled. -/
theorem handedTo_deliveries {w : World} {id : SessionId} {x : Session} {h : List Handled}
    (hx : w.program.session? id = some x) (hw : x.Wired)
    (hk : ∀ k ∈ h, ∃ v ∈ x.workers, v.number = k.worker) (g : InstallerId) :
    ((∀ v ∈ x.workers, v.isOf g = false) → handedTo (w.deliveries id h) g id = []) ∧
      ∀ c ∈ x.workers, c.isOf g = true → x.workers.filter (·.isOf g) = [c] →
        handedTo (w.deliveries id h) g id = handledBy c.number h := by
  induction h with
  | nil => exact ⟨fun _ => rfl, fun _ _ _ _ => rfl⟩
  | cons k rest ih =>
    obtain ⟨ihn, ihs⟩ := ih fun k' hk' => hk k' (List.mem_cons_of_mem _ hk')
    obtain ⟨v, hv, hn⟩ := hk k List.mem_cons_self
    have hd := deliveries_cons hx hw hv hn rest
    constructor
    · intro hnone
      rw [hd, handedTo, List.filter_cons_of_neg (by simp [hnone v hv])]
      exact ihn hnone
    · intro c hc ho hf
      have he := ihs c hc ho hf
      by_cases hvc : v = c
      · rw [hd, handedTo, List.filter_cons_of_pos (by simp [hvc, ho]), List.map_cons, handledBy,
          List.filter_cons_of_pos (by simp [← hn, hvc]), List.map_cons]
        exact congrArg _ he
      · have hnv : v.isOf g = false := by
          rw [← Bool.not_eq_true]
          exact fun hv' => hvc (Session.eq_of_isOf hf hv hv')
        have hnn : k.worker ≠ c.number := fun hkc => hvc (hw.number_inj hv hc (hn.trans hkc))
        rw [hd, handedTo, List.filter_cons_of_neg (by simp [hnv]), handledBy,
          List.filter_cons_of_neg (by simp [hnn])]
        exact he

/-- What an installer's listener takes and what waits for it then is what waited for it before. -/
theorem exchange_delivers {w : World} {id : SessionId} {x y : Session} {h : List Handled}
    {g : InstallerId} (hx : w.program.session? id = some x) (hw : x.Wired) (hg : x.attachedBy g ≤ 1)
    (hd : x.Delivers y h) :
    Exchange (∀ k ∈ h, k.result ≠ .crashed) (taken (w.deliveries id h) g id ++ y.pending g)
      (x.pending g) := by
  obtain ⟨hn, hs⟩ := handedTo_deliveries hx hw hd.known g
  rw [taken_eq_map]
  rcases Session.own_cases hg with hnone | ⟨c, hc, ho, hf⟩
  · refine .of_eq ?_
    rw [hn hnone, Session.pending_of_none hnone, Session.pending_of_none (by
      rw [hd.workers_eq]
      exact hnone)]
    rfl
  · have hfy : y.workers.filter (·.isOf g) = [c] := by rw [hd.workers_eq, hf]
    rw [hs c hc ho hf, Session.pending_of_single hf, Session.pending_of_single hfy]
    exact ⟨hd.mail hc, fun hcrash => (hd.exact hcrash hc).1⟩

end World

namespace Program

/-- A session behind deliveries is the one that they were made to, or another at its core. -/
theorem Delivered.session_cases {id id' : SessionId} {s t : Program} {h : List Handled} {x y : Session}
    (hd : Delivered id s t h) (hx : s.session? id = some x) (hy : t.session? id' = some y) :
    id' = id ∧ x.Delivers y h ∨ ∃ z, s.session? id' = some z ∧ y.core = z.core := by
  by_cases he : id' = id
  · obtain ⟨y', hy', hxy⟩ := hd.here x hx
    have hyy : y' = y := Option.some.inj (hy'.symm.trans (he ▸ hy))
    exact .inl ⟨he, hyy ▸ hxy⟩
  · have ho := hd.others id' he
    rw [hy, Option.map_some] at ho
    obtain ⟨z, hz, hzy⟩ := Option.map_eq_some_iff.mp ho.symm
    exact .inr ⟨z, hz, hzy.symm⟩

theorem Delivered.pending_of_ne {id id' : SessionId} {s t : Program} {h : List Handled}
    (hd : Delivered id s t h) (hne : id' ≠ id) (g : InstallerId) :
    t.pending g id' = s.pending g id' := by
  have ho := hd.others id' hne
  simp only [Program.pending]
  cases hx : s.session? id' with
  | none =>
    rw [hx, Option.map_none, Option.map_eq_none_iff] at ho
    rw [ho]
  | some x =>
    rw [hx, Option.map_some, Option.map_eq_some_iff] at ho
    obtain ⟨y, hy, hyx⟩ := ho
    rw [hy]
    exact Session.pending_of_wiring_eq (Session.wiring_of_core_eq hyx) g

end Program

/-! ## Turns of one worker -/

namespace Program

variable {id : SessionId} {s : Program} {k : Handled} {v : Worker}

/-- What a worker takes in its turn is the first event of its queue. -/
theorem mem_turn (hk : k ∈ (turn id v s).1) : ∃ x e rest, s.session? id = some x ∧
    x.bus.queue v.subscription = e :: rest ∧ k = ⟨v.number, e, ((notify v.listener e).run
      (s.modifySession id (·.withBus (x.bus.receive v.subscription).2))).1⟩ := by
  cases hx : s.session? id with
  | none =>
    rw [turn_of_empty fun y hy => by rw [hx] at hy; cases hy] at hk
    cases hk
  | some x =>
    cases hq : x.bus.queue v.subscription with
    | nil =>
      rw [turn_of_empty fun y hy => by rw [hx] at hy; cases hy; exact hq] at hk
      cases hk
    | cons e rest =>
      rw [turn_of_queue hx hq] at hk
      exact ⟨x, e, rest, rfl, hq, List.mem_singleton.mp hk⟩

theorem rounds_own {n : Nat} (hk : k ∈ (rounds id [v] n s).1) : k.worker = v.number := by
  induction n generalizing s with
  | zero => cases hk
  | succ n ih =>
    refine (List.mem_append.mp hk).elim (fun hk => ?_) ih
    refine (List.mem_append.mp hk).elim (fun hk => ?_) fun hk => nomatch hk
    obtain ⟨_, _, _, _, _, rfl⟩ := mem_turn hk
    rfl

/-- Where one worker takes all that is queued for it, no other one takes anything. -/
theorem flush_own (hk : k ∈ (flush id [v] s).1) : k.worker = v.number := by
  unfold flush at hk
  split at hk
  · exact rounds_own hk
  · cases hk

end Program

theorem Program.Delivered.of_core_eq {id : SessionId} {s s' t : Program} {h : List Handled}
    (hd : Delivered id s' t h) (hc : s'.core = s.core) : Delivered id s t h := by
  constructor
  · exact hd.outline_eq.trans (outline_eq_of_core_eq hc)
  · intro id' hne
    rw [hd.others id' hne, ← session?_core, hc, session?_core]
  · intro x hx
    obtain ⟨x', hx', hxx⟩ := session?_of_map_eq (congrArg Program.sessions hc.symm :) hx
    obtain ⟨y, hy, hd⟩ := hd.here x' hx'
    exact ⟨y, hy, hd.of_core_eq hxx⟩
  · exact fun hs => hd.calm (calm_of_core_eq hs hc)
  · intro x hx hw
    obtain ⟨x', hx', hxx⟩ := session?_of_map_eq (congrArg Program.sessions hc.symm :) hx
    have hn := hd.notes x' hx' (hw.of_wiring_eq (Session.wiring_of_core_eq hxx))
    have hr : s'.reporter = s.reporter := (congrArg Program.reporter hc :)
    have hnow : s'.now = s.now := (congrArg Program.now hc :)
    have hcr : x'.crumbs s'.now = x.crumbs s.now := by
      funext k
      simp only [Session.crumbs, hnow, show x'.workers = x.workers from (congrArg Session.workers hxx :)]
    rw [hcr] at hn
    exact ⟨hr ▸ hn.retention_eq, hr ▸ hn.breadcrumbs_eq, hr ▸ hn.rules⟩

namespace World

/-! ## Operations -/

theorem turn_cases (w : World) (id : SessionId) (number : Nat) :
    ((Operation.turn id number).next w).program = w.program ∧
        (Operation.turn id number).deliveries w = [] ∨
      ∃ x t h, w.program.session? id = some x ∧ (x.Wired → Delivered id w.program t h) ∧
        ((Operation.turn id number).next w).program = t ∧
        (Operation.turn id number).deliveries w = w.deliveries id h := by
  simp only [Operation.next, Operation.deliveries]
  cases hv : w.worker? id number with
  | none => exact .inl ⟨rfl, rfl⟩
  | some v =>
    obtain ⟨x, hx, hf⟩ := Option.bind_eq_some_iff.mp hv
    exact .inr ⟨x, _, _, hx, fun hw => (turn_delivered hx hw (List.mem_of_find?_eq_some hf)).1, rfl,
      rfl⟩

/-- To stop a session that can be reached is to deliver all that is queued there, and to end its
workers then. -/
theorem stop_cases (w : World) (id : SessionId) :
    ((Operation.stop id).next w).program = w.program ∧ (Operation.stop id).deliveries w = [] ∧
        w.program.isReachable id = false ∨
      ∃ x t h, w.program.session? id = some x ∧ w.program.isReachable id = true ∧
        (x.Wired → Delivered id w.program t h ∧ ∀ y, t.session? id = some y →
          ∀ v ∈ y.workers, y.bus.queue v.subscription = []) ∧
        ((Operation.stop id).next w).program = markStopped id
          (t.modifySession id fun session => session.workers.foldl Session.endWorker session) ∧
        (Operation.stop id).deliveries w = w.deliveries id h := by
  simp only [Operation.next, Operation.deliveries, through]
  cases hr : w.program.isReachable id with
  | false => exact .inl ⟨rfl, rfl, rfl⟩
  | true =>
    obtain ⟨x, hx, _⟩ := isReachable_iff.mp hr
    simp only [if_true, update, Program.stop, settle_of_session? hx]
    refine .inr ⟨x, _, _, hx, trivial, fun hw => ?_, rfl, rfl⟩
    obtain ⟨hd, hempty⟩ := flush_delivered hx hw x.workers fun _ h => h
    refine ⟨hd, fun y hy v hv => hempty y hy v ?_⟩
    obtain ⟨y', hy', hxy⟩ := hd.here x hx
    rw [hy] at hy'
    cases hy'
    rw [← hxy.workers_eq]
    exact hv

/-- To detach a listener is to do nothing but to ask, or to deliver what is queued for its first
worker and to end that then. -/
theorem detach_cases (w : World) (id : SessionId) (l : Listener) :
    ((Operation.detach id l).next w).program.core = w.program.core ∧
        (Operation.detach id l).deliveries w = [] ∧
        (l ∈ w.listeners ∧ w.program.isReachable id = true →
          ((Program.detach id l).run w.program).1 ≠ .done true) ∨
      ∃ x v t h, w.program.session? id = some x ∧
        (l ∈ w.listeners ∧ w.program.isReachable id = true ∧ x.workerOf? l.id = some v) ∧
        ((Program.detach id l).run w.program).1 = .done true ∧
        (x.Wired → Delivered id w.program t h ∧ ∀ y, t.session? id = some y →
          v ∈ y.workers ∧ y.bus.queue v.subscription = []) ∧
        ((Operation.detach id l).next w).program = t.modifySession id (·.endWorker v) ∧
        (Operation.detach id l).deliveries w = w.deliveries id h ∧ ∀ k ∈ h, k.worker = v.number := by
  simp only [Operation.next, Operation.deliveries, through, update]
  by_cases hl : l ∈ w.listeners
  · cases hr : w.program.isReachable id with
    | false =>
      simp only [hl, if_true, Bool.false_eq_true, and_false, if_false]
      exact .inl ⟨trivial, trivial, False.elim⟩
    | true =>
      simp only [hl, if_true, and_self]
      have hk := onSession_keeps_core id (Session.consult_keeps_core .detach) w.program
      rw [run_detach]
      rcases hc : (onSession id (Session.consult .detach)).run w.program with ⟨_ | _ | _, s⟩ <;>
        rw [hc] at hk
      · cases hv : (s.session? id).bind (·.workerOf? l.id) with
        | none =>
          simp only [endWorkerOf, hv]
          exact .inl ⟨hk, trivial, fun _ h => (by cases h)⟩
        | some v =>
          -- The call has left its effects on the session before its worker takes the queue.
          obtain ⟨x', hx', hf⟩ := Option.bind_eq_some_iff.mp hv
          obtain ⟨x, hx, hxx⟩ := session?_of_map_eq (congrArg Program.sessions hk :) hx'
          have hm : v ∈ x'.workers := List.mem_of_find?_eq_some hf
          simp only [endWorkerOf, hv]
          have hfirst : x.workerOf? l.id = some v := by
            rw [Session.workerOf?, show x.workers = x'.workers from (congrArg Session.workers hxx :)]
            exact hf
          refine .inr ⟨x, v, (flush id [v] s).2, _, hx, ⟨trivial, trivial, hfirst⟩, trivial,
            fun hw => ?_, rfl, rfl, fun k hk => flush_own hk⟩
          have hwx : x'.Wired := hw.of_wiring_eq (Session.wiring_of_core_eq hxx.symm)
          obtain ⟨hd, hempty⟩ := flush_delivered hx' hwx [v] fun u hu => List.mem_singleton.mp hu ▸ hm
          refine ⟨hd.of_core_eq hk, fun y hy => ⟨?_, hempty y hy v (List.mem_singleton_self v)⟩⟩
          obtain ⟨y', hy', hxy⟩ := hd.here x' hx'
          rw [hy] at hy'
          cases hy'
          rw [hxy.workers_eq]
          exact hm
      · exact .inl ⟨hk, rfl, fun _ h => (by cases h)⟩
      · exact .inl ⟨hk, rfl, fun _ h => (by cases h)⟩
  · simp only [hl, if_false, false_and]
    exact .inl ⟨trivial, trivial, False.elim⟩

/-- What an operation does to the mail of every session, with what it delivers and posts. -/
structure Mails (w : World) (t : Program) (ds : List Delivery) (ps : List Posting) : Prop where
  wired : w.program.Wired → t.Wired
  connected : w.program.Wired → w.program.Calm → w.program.Connected → t.Connected
  exchange : w.program.Wired → ∀ g id,
    (∀ x, w.program.session? id = some x → x.attachedBy g ≤ 1) →
      Exchange (w.program.Calm ∧ w.program.Connected) (taken ds g id ++ t.pending g id)
        (w.program.pending g id ++ due ps g id)

theorem Mails.of_quiet {w : World} {t : Program} (h : Quiet w.program t) : Mails w t [] [] := by
  refine ⟨h.wired, fun hw _ hc => h.connected hw hc, fun hw g id _ => .of_eq ?_⟩
  rw [h.pending hw g id]
  exact (List.append_nil _).symm

theorem Mails.of_delivered {w : World} {id : SessionId} {x : Session} {t u : Program}
    {h : List Handled} (hx : w.program.session? id = some x)
    (hd : x.Wired → Delivered id w.program t h) (hq : x.Wired → Quiet t u) :
    Mails w u (w.deliveries id h) [] := by
  have hwired : w.program.Wired → t.Wired := by
    intro hw id' y hy
    obtain ⟨_, hxy⟩ | ⟨z, hz, hyz⟩ := (hd (hw id x hx)).session_cases hx hy
    · exact hxy.wired (hw id x hx)
    · exact (hw id' z hz).of_wiring_eq (Session.wiring_of_core_eq hyz)
  constructor
  · exact fun hw => (hq (hw id x hx)).wired (hwired hw)
  · intro hw hcalm hc
    refine (hq (hw id x hx)).connected (hwired hw) fun id' y hy => ?_
    have hd := hd (hw id x hx)
    obtain ⟨_, hxy⟩ | ⟨z, hz, hyz⟩ := hd.session_cases hx hy
    · exact (hc id x hx).delivers hxy (hd.calm hcalm)
    · exact (hc id' z hz).of_wiring_eq (Session.wiring_of_core_eq hyz)
  · intro hw g id' hg
    have hd := hd (hw id x hx)
    rw [(hq (hw id x hx)).pending (hwired hw) g id', show due [] g id' = [] from rfl, List.append_nil]
    by_cases he : id' = id
    · obtain ⟨y, hy, hxy⟩ := hd.here x hx
      have hex := exchange_delivers hx (hw id x hx) (hg x (he ▸ hx)) hxy
      have hpx : w.program.pending g id = x.pending g := by
        rw [Program.pending, hx]
        rfl
      have hpy : t.pending g id = y.pending g := by
        rw [Program.pending, hy]
        rfl
      rw [he, hpx, hpy]
      exact ⟨hex.sublist, fun hc => hex.eq (hd.calm hc.1)⟩
    · rw [taken_eq_map, handedTo_deliveries_of_ne w h g (Ne.symm he), hd.pending_of_ne he g]
      exact .of_eq rfl

theorem mails_post (w : World) (id : SessionId) (e : Event) :
    Mails w ((Operation.post id e).next w).program [] ((Operation.post id e).postings w) := by
  simp only [Operation.next, Operation.postings, through, update]
  cases hr : w.program.isReachable id with
  | false =>
    simp only [Bool.false_eq_true, if_false]
    exact .of_quiet (.refl _)
  | true =>
    obtain ⟨x, hx, _⟩ := isReachable_iff.mp hr
    have hp : (Program.post id e).run w.program = (onSession id (Session.post e)).run w.program := rfl
    cases hs : x.stopped with
    | true =>
      rw [hp, run_onSession hx, Session.run_post_of_stopped e hs]
      simp only [hx, if_true]
      refine .of_quiet (.of_wiring_eq ?_)
      exact Table.map_set_of_get? hx rfl
    | false =>
      rw [hp, run_onSession hx, Session.run_post_of_running e hs]
      simp only [hx, if_true]
      change Mails w { w.program with sessions := w.program.sessions.set id (x.posted e) } []
        [⟨id, e, x.workers⟩]
      constructor
      · intro hw id' y hy
        rcases set_cases hy with ⟨rfl, rfl⟩ | ⟨_, hy⟩
        · exact (hw id' x hx).posted e
        · exact hw id' y hy
      · intro hw _ hc id' y hy
        rcases set_cases hy with ⟨rfl, rfl⟩ | ⟨_, hy⟩
        · exact (hc id' x hx).posted (hw id' x hx) e
        · exact hc id' y hy
      · intro hw g id' hg
        rw [show taken [] g id' = [] from rfl, List.nil_append, due_singleton]
        simp only [Program.pending, session?, Table.get?_set]
        by_cases he : id' = id
        · have hex := Session.exchange_posted (hw id x hx) (hg x (he ▸ hx)) hs e
          simp only [session?] at hx
          simp only [he, hx, if_true, true_and, Option.map_some, Option.getD_some]
          exact ⟨hex.sublist, fun hc => hex.eq (hc.2 id x hx)⟩
        · rw [if_neg he, if_neg fun h => he h.1.symm, List.append_nil]
          exact .of_eq rfl

theorem mails_turn (w : World) (id : SessionId) (number : Nat) :
    Mails w ((Operation.turn id number).next w).program ((Operation.turn id number).deliveries w)
      [] := by
  obtain ⟨hn, hd⟩ | ⟨x, t, h, hx, hdel, hn, hd⟩ := turn_cases w id number <;> rw [hn, hd]
  · exact .of_quiet (.refl _)
  · exact .of_delivered hx hdel fun _ => .refl _

theorem mails_stop (w : World) (id : SessionId) :
    Mails w ((Operation.stop id).next w).program ((Operation.stop id).deliveries w) [] := by
  obtain ⟨hn, hd, -⟩ | ⟨x, t, h, hx, -, hdel, hn, hd⟩ := stop_cases w id <;> rw [hn, hd]
  · exact .of_quiet (.refl _)
  · refine .of_delivered hx (fun hw => (hdel hw).1) fun hw => ?_
    obtain ⟨hw, hempty⟩ := hdel hw
    obtain ⟨y, hy, _⟩ := hw.here x hx
    exact .emptied hy (hempty y hy)

theorem mails_detach (w : World) (id : SessionId) (l : Listener) :
    Mails w ((Operation.detach id l).next w).program ((Operation.detach id l).deliveries w) [] := by
  obtain ⟨hn, hd, -⟩ | ⟨x, v, t, h, hx, -, -, hdel, hn, hd, -⟩ := detach_cases w id l
  · rw [hd]
    exact .of_quiet (.of_core_eq hn)
  · rw [hn, hd]
    refine .of_delivered hx (fun hw => (hdel hw).1) fun hw => ?_
    refine .of_modifySession rfl fun y hy hwy => ?_
    obtain ⟨hv, hempty⟩ := (hdel hw).2 y hy
    exact ⟨hwy.endWorker v, fun hcon => hcon.endWorker hwy hv, Session.pending_endWorker hwy hv hempty⟩

/-- What every operation does to the mail. -/
theorem mails_next {left : InstallerId → SessionId → Nat} {w : World} (h : w.Sound left)
    (o : Operation) : Mails w (o.next w).program (o.deliveries w) (o.postings w) := by
  cases o with
  | post id e => exact mails_post w id e
  | turn id number => exact mails_turn w id number
  | stop id => exact mails_stop w id
  | detach id l => exact mails_detach w id l
  | start id settings backend detached => exact .of_quiet (.start _ id settings backend _)
  | release id => exact .of_quiet (quiet_wiring fun _ => rfl)
  | setBackend id backend => exact .of_quiet (quiet_wiring fun _ => rfl)
  | read id a =>
    exact .of_quiet (through_preserves (.refl _) (.of_core_eq
      (onSession_keeps_core id (Session.read_keeps_core a) _)))
  | write id key value =>
    exact .of_quiet (through_preserves (.refl _) (.of_core_eq
      (onSession_keeps_core id (Session.write_keeps_core key value) _)))
  | makeActive id => exact .of_quiet (through_preserves (.refl _) (.of_sessions_eq rfl))
  | clearActive id =>
    refine .of_quiet (.of_sessions_eq ?_)
    simp only [Operation.next, update, clearActive]
    split <;> rfl
  | attach id l =>
    refine .of_quiet ?_
    simp only [Operation.next]
    split
    · exact through_preserves (.refl _) (.attach id l _)
    · exact .refl _
  | submit report hint =>
    exact .of_quiet (.of_sessions_core_eq (congrArg Program.sessions
      (submit_thins report hint w.program).body_eq :))
  | ensureInstalled g id =>
    exact .of_quiet (ensureInstalled_preserves g id (.refl _) (.ensureInstalled h.program g id))
  | forgetGone g =>
    exact .of_quiet (forgetGone_preserves g (.refl _) (.forgetGone g _))
  | setUp i =>
    refine .of_quiet ?_
    exact setUp_preserves w i (.refl _) (fun _ => .of_sessions_eq rfl)
      (fun config id hq => hq.trans (.ensureInstalled (h.program.newInstaller config) _ id))
      fun _ _ hq => hq.trans (.of_sessions_eq rfl)
  | tick | newListener | enable | disable | leave | clearCrumbs | register | unregister
  | newInstaller | newIntegration => exact .of_quiet (.of_sessions_eq rfl)

/-! ## Runs -/

theorem wired_initial (now : Timestamp) (retention : Retention) :
    (initial now retention).program.Wired := fun _ _ hx => nomatch hx

theorem connected_initial (now : Timestamp) (retention : Retention) :
    (initial now retention).program.Connected := fun _ _ hx => nomatch hx

theorem attachedBy_le_one {w : World} {left : InstallerId → SessionId → Nat} (h : w.Sound left)
    {g : InstallerId} {id : SessionId} (hz : left g id = 0) {x : Session}
    (hx : w.program.session? id = some x) : x.attachedBy g ≤ 1 := by
  cases hs : x.stopped with
  | true =>
    have hn := Session.attachedBy_of_nil (h.program.stopped_empty id x hx hs) g
    omega
  | false =>
    have hb := (h.program.balance g id x hx hs).at_most
    omega

/-- As long as an installer leaves no listener at a session by crashing, what its listeners there take
is, in order, among what was posted while they were attached. In a run without crashes it is all of
that, but for what still waits. -/
theorem exchange_perform {ops : List Operation} {w : World} {left : InstallerId → SessionId → Nat}
    (h : w.Sound left) (hw : w.program.Wired) {g : InstallerId} {id : SessionId}
    (hz : left g id + leaks (along Operation.activations ops w) g id = 0) :
    Exchange (w.program.Calm ∧ w.program.Connected ∧ ∀ o ∈ ops, o.Calm)
      (taken (along Operation.deliveries ops w) g id ++ (perform ops w).program.pending g id)
      (w.program.pending g id ++ due (along Operation.postings ops w) g id) := by
  induction ops generalizing w left with
  | nil => exact .of_eq (List.append_nil _).symm
  | cons o rest ih =>
    -- No crash leaves a listener in the whole run, so none does in its first step or behind it.
    simp only [along, leaks_append] at hz
    have hm := mails_next h o
    have hstep := hm.exchange hw g id fun x hx => attachedBy_le_one h (by omega) hx
    have hrest := ih (h.next o) (hm.wired hw) (by omega)
    simp only [along, perform, taken_append, due_append]
    have hstep' : Exchange (w.program.Calm ∧ w.program.Connected ∧ ∀ p ∈ o :: rest, p.Calm)
        (taken (o.deliveries w) g id ++ (o.next w).program.pending g id)
        (w.program.pending g id ++ due (o.postings w) g id) :=
      ⟨hstep.sublist, fun hc => hstep.eq ⟨hc.1, hc.2.1⟩⟩
    refine hstep'.trans hrest ?_
    rintro ⟨hcalm, hcon, ho⟩
    exact ⟨calm_next h hcalm (ho o List.mem_cons_self), hm.connected hw hcalm hcon,
      fun p hp => ho p (List.mem_cons_of_mem _ hp)⟩

end World

end SessionTrail

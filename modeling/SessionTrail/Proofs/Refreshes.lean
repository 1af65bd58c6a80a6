import SessionTrail.Proofs.Silence
import SessionTrail.Proofs.Trouble

/-!
# Refreshes

A refresh has the active session read what identifies its application and write that into its properties. So
many writes does the active session serve while events are delivered, if it runs and its backend has no
trouble; no other session serves any then.

A session that stops still runs while its workers take what is queued for them. So a trail that has the
identity properties of the active session written afresh meanwhile finds it running, also where the active
session is the one that stops.
-/
namespace SessionTrail

open Program World

/-- Whether a listener has the identity properties written afresh at an event: it leaves a trail, and a job
starts or an attempt at a stage is submitted. -/
def Listener.refreshes (l : Listener) (e : Event) : Bool :=
  match l.behaviour with
  | .trail _ => e.kind = .jobStart ∨ e.kind = .stageSubmitted
  | .silent | .recorder _ => false

/-- Whether the identity properties are written afresh at a delivery. -/
def Delivery.refreshes (d : Delivery) : Bool := d.worker.listener.refreshes d.event

/-- Whether the identity properties are written afresh at an event that one of some workers took. -/
def Handled.refreshes (workers : List Worker) (k : Handled) : Bool :=
  (workers.find? (·.number = k.worker)).any (·.listener.refreshes k.event)

/-- Whether a backend has no trouble with any call. -/
def Backend.Untroubled (b : Backend) : Prop := ∀ history c, b.trouble history c = none

theorem Backend.untroubled_sound : Backend.sound.Untroubled := fun _ _ => rfl

/-- What becomes of the end of a refresh: that the session has stopped is no error. -/
def Outcome.ofRefresh : Outcome CallError Unit → Outcome HandlingError Unit
  | .failed .stopped => .done ()
  | outcome => outcome.mapError .other

namespace Session

variable {x : Session}

theorem firstTrouble_untroubled (hb : x.backend.Untroubled) (hs : x.stopped = false) (cs : List Call) :
    x.firstTrouble cs = none := by
  induction cs generalizing x with
  | nil => rfl
  | cons c rest ih =>
    have hn : x.troubleWith c = none := by
      rw [troubleWith, Backend.troubleWith, hb, hs]
      rfl
    have hb' : (x.served c).backend.Untroubled := by
      rw [served_backend]
      exact hb
    rw [firstTrouble_cons, hn, Option.none_or]
    exact ih hb' ((served_stopped x c).trans hs)

/-- Where the backend has no trouble, a running session serves both writes, and one that has stopped none. -/
theorem identityCalls_untroubled (hb : x.backend.Untroubled) (keyPrefix : String) :
    ∃ y, makeCalls (x.identityCalls keyPrefix) x =
        (if x.stopped then .failed .stopped else .done (), y) ∧ y.core = x.core ∧
      y.writes = x.writes + if x.stopped then 0 else 2 := by
  cases hs : x.stopped with
  | true =>
    have ht : x.troubleWith (.read (.fact .appName)) = some (.refusal .stopped) := by
      rw [troubleWith, Backend.troubleWith, hb, hs]
      rfl
    refine ⟨x.note (.read (.fact .appName)), ?_, rfl, rfl⟩
    rw [identityCalls, makeCalls, ht]
    rfl
  | false =>
    obtain ⟨_, hm⟩ | ⟨_, _, _, _, _, ht, _⟩ := makeCalls_cases (x.identityCalls keyPrefix) x
    · exact ⟨(x.identityCalls keyPrefix).foldl served x, hm, foldl_served_core _ x, rfl⟩
    · rw [firstTrouble_untroubled hb hs] at ht
      cases ht

end Session

namespace Program

variable {s t : Program} {a id : SessionId} {n : Nat} {on : Bool}

/-! ## A refresh -/

theorem refreshIdentity_eq (keyPrefix : String) (s : Program) : (refreshIdentity keyPrefix).run s =
    (Outcome.ofRefresh ((writeIdentity keyPrefix s.active).run s).1,
      ((writeIdentity keyPrefix s.active).run s).2) := by
  change refreshIdentity keyPrefix s = _
  unfold refreshIdentity
  rcases (writeIdentity keyPrefix s.active).run s with ⟨_ | ⟨_ | _⟩ | _, t⟩ <;> rfl

/-- Where there is no active session, there is nothing to refresh. -/
theorem refreshIdentity_of_none (h : ∀ id, s.active = some id → s.session? id = none) (keyPrefix : String) :
    (refreshIdentity keyPrefix).run s = (.done (), s) := by
  rw [refreshIdentity_eq]
  cases ha : s.active with
  | none => rfl
  | some id =>
    have hw : (writeIdentity keyPrefix (some id)).run s = (.failed .stopped, s) :=
      run_onSession_of_none (h id ha)
    rw [hw]
    rfl

/-- A refresh makes its calls on the active session, and nothing else. -/
theorem refreshIdentity_of_active {x : Session} (ha : s.active = some id) (hx : s.session? id = some x)
    (keyPrefix : String) : (refreshIdentity keyPrefix).run s =
      (Outcome.ofRefresh (Session.makeCalls (x.identityCalls keyPrefix) x).1, { s with
        sessions := s.sessions.set id (Session.makeCalls (x.identityCalls keyPrefix) x).2 }) := by
  have hm := Session.makes_writeIdentity x keyPrefix
  have hmap : (Session.makeCalls (x.identityCalls keyPrefix) x).1.map (fun _ => ()) =
      (Session.makeCalls (x.identityCalls keyPrefix) x).1 := by
    cases (Session.makeCalls (x.identityCalls keyPrefix) x).1 <;> rfl
  have hw : (writeIdentity keyPrefix s.active).run s =
      (onSession id (Session.writeIdentity keyPrefix)).run s := by
    rw [ha]
    rfl
  rw [refreshIdentity_eq, hw, run_onSession hx, hm, hmap]

/-! ## What the trail does with an event -/

/-- An event that has the properties refreshed is always noted first. -/
theorem run_trail_of_refreshes (keyPrefix : String) {e : Event} (he : e.refreshesIdentity = true) (s : Program) :
    ∃ note, e.note = .ok (some note) ∧
      (trail keyPrefix e).run s = (refreshIdentity keyPrefix).run (s.leave (note.crumb s.now)) := by
  obtain ⟨note, hnote⟩ : ∃ note, e.note = .ok (some note) := by
    cases e <;> first | exact ⟨_, rfl⟩ | cases he
  refine ⟨note, hnote, ?_⟩
  change trail keyPrefix e s = _
  simp only [trail, hnote, he, if_true]

/-- Any other event does nothing to the sessions. -/
theorem run_trail_of_spares (keyPrefix : String) {e : Event} (he : e.refreshesIdentity = false) (s : Program) :
    ((trail keyPrefix e).run s).1 ≠ .crashed ∧ ((trail keyPrefix e).run s).2.sessions = s.sessions ∧
      ((trail keyPrefix e).run s).2.active = s.active := by
  change (trail keyPrefix e s).1 ≠ .crashed ∧ (trail keyPrefix e s).2.sessions = s.sessions ∧
    (trail keyPrefix e s).2.active = s.active
  simp only [trail, he, Bool.false_eq_true, if_false]
  rcases e.note with why | _ | note <;> exact ⟨fun hc => (by cases hc), rfl, rfl⟩

/-! ## Writes while events are delivered -/

/-- Whether a refresh writes to a session: it is the active one, and it runs. -/
def isRefreshed (s : Program) (a : SessionId) : Bool :=
  decide (s.active = some a) && (s.session? a).any (!·.stopped)

/-- How many writes a session has served; none where there is no session. -/
def writesOf (s : Program) (a : SessionId) : Nat := ((s.session? a).map (·.writes)).getD 0

/-- A session, if it is there, has a backend without trouble, and it has served so many writes. -/
structure Counts (s : Program) (a : SessionId) (n : Nat) : Prop where
  untroubled : ∀ x, s.session? a = some x → x.backend.Untroubled
  writes_eq : s.writesOf a = n

/-- A session has served so many writes, and whether a refresh writes to it is `on`. -/
structure Tallied (s : Program) (a : SessionId) (on : Bool) (n : Nat) : Prop extends s.Counts a n where
  isRefreshed_eq : s.isRefreshed a = on

theorem writesOf_of_session? {x : Session} (hx : s.session? a = some x) : s.writesOf a = x.writes := by
  rw [writesOf, hx]
  rfl

theorem isRefreshed_of_session? {x : Session} (hx : s.session? a = some x) :
    s.isRefreshed a = (decide (s.active = some a) && !x.stopped) := by
  rw [isRefreshed, hx]
  rfl

namespace Counts

theorem of_session?_eq (h : s.Counts a n) (ht : t.session? a = s.session? a) : t.Counts a n :=
  ⟨fun x hx => h.untroubled x (ht.symm.trans hx), by rw [writesOf, ht]; exact h.writes_eq⟩

/-- What becomes of the session does not matter where its backend and its writes stay as they are. -/
theorem of_session? (h : s.Counts a n) {x y : Session} (hx : s.session? a = some x)
    (hy : t.session? a = some y) (hb : y.backend = x.backend) (hn : y.writes = x.writes) : t.Counts a n := by
  refine ⟨fun z hz => ?_, ?_⟩
  · rw [hy] at hz
    cases hz
    rw [hb]
    exact h.untroubled x hx
  · rw [writesOf_of_session? hy, hn, ← writesOf_of_session? hx]
    exact h.writes_eq

end Counts

namespace Tallied

theorem of_session?_eq (h : s.Tallied a on n) (ha : t.active = s.active) (ht : t.session? a = s.session? a) :
    t.Tallied a on n :=
  ⟨h.toCounts.of_session?_eq ht, by rw [isRefreshed, ha, ht]; exact h.isRefreshed_eq⟩

theorem of_sessions_eq (h : s.Tallied a on n) (ha : t.active = s.active) (hs : t.sessions = s.sessions) :
    t.Tallied a on n :=
  h.of_session?_eq ha (by rw [session?, hs]; rfl)

/-- What is done to the sessions does not matter where it leaves backend, writes and end as they are. -/
theorem modifySession (h : s.Tallied a on n) (id : SessionId) {f : Session → Session}
    (hf : ∀ x, (f x).backend = x.backend ∧ (f x).writes = x.writes ∧ (f x).stopped = x.stopped) :
    (s.modifySession id f).Tallied a on n := by
  by_cases he : a = id
  · cases hx : s.session? id with
    | none =>
      rw [modifySession_of_none hx]
      exact h
    | some x =>
      subst he
      have hy : (s.modifySession a f).session? a = some (f x) := by
        rw [session?_modifySession, if_pos rfl, hx, Option.map_some]
      refine ⟨h.toCounts.of_session? hx hy (hf x).1 (hf x).2.1, ?_⟩
      rw [isRefreshed_of_session? hy, (hf x).2.2, ← h.isRefreshed_eq, isRefreshed_of_session? hx]
      rfl
  · refine h.of_session?_eq rfl ?_
    rw [session?_modifySession, if_neg he]

/-- A refresh makes two writes on the active session, if that runs, and none on any other one. -/
theorem refreshIdentity (h : s.Tallied a on n) (keyPrefix : String) :
    (on = true → ((refreshIdentity keyPrefix).run s).1 = .done ()) ∧
      ((refreshIdentity keyPrefix).run s).2.Tallied a on (n + if on then 2 else 0) := by
  cases hactive : s.active with
  | none =>
    obtain rfl : on = false := by
      rw [← h.isRefreshed_eq, isRefreshed, hactive]
      rfl
    rw [refreshIdentity_of_none fun id ha => by rw [hactive] at ha; cases ha]
    exact ⟨nofun, h⟩
  | some id =>
    cases hx : s.session? id with
    | none =>
      obtain rfl : on = false := by
        rw [← h.isRefreshed_eq, isRefreshed, hactive]
        by_cases he : a = id
        · rw [he, hx]
          exact Bool.and_false _
        · rw [decide_eq_false fun ha => he (Option.some.inj ha).symm, Bool.false_and]
      rw [refreshIdentity_of_none fun id' ha => by rw [hactive] at ha; cases ha; exact hx]
      exact ⟨nofun, h⟩
    | some x =>
      rw [refreshIdentity_of_active hactive hx]
      by_cases he : a = id
      · subst he
        obtain ⟨y, hm, hcore, hwrites⟩ :=
          Session.identityCalls_untroubled (h.untroubled x hx) keyPrefix
        have hyb : y.backend = x.backend := (congrArg Session.backend hcore :)
        have hys : y.stopped = x.stopped := (congrArg Session.stopped hcore :)
        have hon : on = !x.stopped := by
          rw [← h.isRefreshed_eq, isRefreshed_of_session? hx, hactive, decide_eq_true rfl, Bool.true_and]
        have hy : ({ s with sessions := s.sessions.set a y } : Program).session? a = some y :=
          Table.get?_set_self ..
        rw [hm]
        refine ⟨fun h => ?_, ⟨⟨fun z hz => ?_, ?_⟩, ?_⟩⟩
        · rw [h, Bool.true_eq, Bool.not_eq_true'] at hon
          simp only [hon]
          rfl
        · rw [hy] at hz
          cases hz
          rw [hyb]
          exact h.untroubled x hx
        · rw [writesOf_of_session? hy, hwrites, ← writesOf_of_session? hx, h.writes_eq, hon]
          cases x.stopped <;> rfl
        · rw [isRefreshed_of_session? hy, hys, hactive, decide_eq_true rfl, Bool.true_and, hon]
      · obtain rfl : on = false := by
          rw [← h.isRefreshed_eq, isRefreshed, hactive,
            decide_eq_false fun ha => he (Option.some.inj ha).symm, Bool.false_and]
        exact ⟨nofun, h.of_session?_eq rfl (Table.get?_set_of_ne _ _ he)⟩

/-- A listener that is to refresh the properties has the active session serve two writes. It does not crash
then. -/
theorem notify (h : s.Tallied a on n) (l : Listener) (e : Event) :
    (on = true → ((notify l e).run s).1 ≠ .crashed) ∧
      ((notify l e).run s).2.Tallied a on (n + if on && l.refreshes e then 2 else 0) := by
  unfold Program.notify Listener.refreshes
  cases l.behaviour with
  | silent =>
    rw [Bool.and_false]
    exact ⟨fun _ hc => (by cases hc), h⟩
  | recorder answers =>
    rw [Bool.and_false]
    simp only [Action.run_bind, Action.run_modify]
    cases answers.get? e.kind with
    | none => exact ⟨fun _ hc => (by cases hc), h.of_sessions_eq rfl rfl⟩
    | some why => exact ⟨fun _ hc => (by cases hc), h.of_sessions_eq rfl rfl⟩
  | trail keyPrefix =>
    simp only [← refreshesIdentity_eq]
    cases hr : e.refreshesIdentity with
    | true =>
      obtain ⟨note, _, hrun⟩ := run_trail_of_refreshes keyPrefix hr s
      obtain ⟨hdone, htallied⟩ :=
        (h.of_sessions_eq (t := s.leave (note.crumb s.now)) rfl rfl).refreshIdentity keyPrefix
      rw [Bool.and_true]
      simp only [hrun]
      exact ⟨fun hon hc => (by rw [hdone hon] at hc; cases hc), htallied⟩
    | false =>
      obtain ⟨hc, hs, ha⟩ := run_trail_of_spares keyPrefix hr s
      rw [Bool.and_false]
      exact ⟨fun _ => hc, h.of_sessions_eq ha hs⟩

end Tallied

/-- What some workers handled while a session served writes: two more for each refresh if it was the active
one and ran, and then nobody crashed; else none. -/
structure Tallies (workers : List Worker) (a : SessionId) (on : Bool) (n : Nat) (handled : List Handled)
    (t : Program) : Prop where
  returned : on = true → ∀ k ∈ handled, k.result ≠ .crashed
  tallied : t.Tallied a on (n + if on then 2 * handled.countP (·.refreshes workers) else 0)

namespace Tallies

variable {x : Session}

theorem refl (h : s.Tallied a on n) (workers : List Worker) : Tallies workers a on n [] s := by
  refine ⟨fun _ _ hk => (nomatch hk), ?_⟩
  rw [List.countP_nil, Nat.mul_zero, ite_self]
  exact h

theorem append {workers : List Worker} {first others : List Handled} {t u : Program}
    (h : Tallies workers a on n first t)
    (h' : Tallies workers a on (n + if on then 2 * first.countP (·.refreshes workers) else 0) others u) :
    Tallies workers a on n (first ++ others) u := by
  refine ⟨fun hon k hk => (List.mem_append.mp hk).elim (h.returned hon k) (h'.returned hon k), ?_⟩
  have ht := h'.tallied
  cases on with
  | true =>
    simp only [if_true] at ht ⊢
    rw [List.countP_append, Nat.mul_add, ← Nat.add_assoc]
    exact ht
  | false => exact ht

theorem turn (h : s.Tallied a on n) (hw : x.Wired) {v : Worker} (hv : v ∈ x.workers) :
    Tallies x.workers a on n (turn id v s).1 (turn id v s).2 := by
  cases hy : s.session? id with
  | none =>
    rw [turn_of_empty fun y hy' => by rw [hy] at hy'; cases hy']
    exact .refl h _
  | some y =>
    cases hq : y.bus.queue v.subscription with
    | nil =>
      rw [turn_of_empty fun y' hy' => by rw [hy] at hy'; cases hy'; exact hq]
      exact .refl h _
    | cons e rest =>
      obtain ⟨hr, ht⟩ := (h.modifySession id (f := (·.withBus (y.bus.receive v.subscription).2))
        fun _ => ⟨rfl, rfl, rfl⟩).notify v.listener e
      rw [turn_of_queue hy hq]
      refine ⟨fun hon k hk => List.mem_singleton.mp hk ▸ hr hon, ?_⟩
      have hcount : ∀ r, (if on then 2 * [(⟨v.number, e, r⟩ : Handled)].countP (·.refreshes x.workers)
          else 0) = if on && v.listener.refreshes e then 2 else 0 := fun r => by
        rw [List.countP_singleton, Handled.refreshes, hw.find?_number hv, Option.any_some]
        cases on <;> cases v.listener.refreshes e <;> rfl
      rw [hcount]
      split
      · exact ht.modifySession id fun _ => ⟨rfl, rfl, rfl⟩
      · exact ht

theorem round (h : s.Tallied a on n) (hw : x.Wired) {workers : List Worker}
    (hv : ∀ v ∈ workers, v ∈ x.workers) :
    Tallies x.workers a on n (round id workers s).1 (round id workers s).2 := by
  induction workers generalizing s n with
  | nil => exact .refl h _
  | cons v rest ih =>
    have hfirst : Tallies x.workers a on n (Program.turn id v s).1 (Program.turn id v s).2 :=
      turn h hw (hv v List.mem_cons_self)
    exact hfirst.append (ih hfirst.tallied fun u hu => hv u (List.mem_cons_of_mem _ hu))

theorem rounds (h : s.Tallied a on n) (hw : x.Wired) {workers : List Worker}
    (hv : ∀ v ∈ workers, v ∈ x.workers) (m : Nat) :
    Tallies x.workers a on n (rounds id workers m s).1 (rounds id workers m s).2 := by
  induction m generalizing s n with
  | zero => exact .refl h _
  | succ m ih =>
    have hfirst : Tallies x.workers a on n (Program.round id workers s).1
        (Program.round id workers s).2 := round h hw hv
    exact hfirst.append (ih hfirst.tallied)

theorem flush (h : s.Tallied a on n) (hw : x.Wired) {workers : List Worker}
    (hv : ∀ v ∈ workers, v ∈ x.workers) :
    Tallies x.workers a on n (flush id workers s).1 (flush id workers s).2 := by
  unfold Program.flush
  split
  · exact rounds h hw hv _
  · exact .refl h _

theorem settle (h : s.Tallied a on n) (hx : s.session? id = some x) (hw : x.Wired) :
    Tallies x.workers a on n (settle id s).1 (settle id s).2 := by
  rw [settle_of_session? hx]
  exact flush h hw fun _ hv => hv

end Tallies

/-- A session is the active one and runs, on a sound backend, and it has served so many writes. -/
structure Serving (s : Program) (a : SessionId) (n : Nat) : Prop where
  active : s.active = some a
  session : ∃ x, s.session? a = some x ∧ x.backend = .sound ∧ x.stopped = false ∧ x.writes = n

theorem Serving.tallied (h : s.Serving a n) : s.Tallied a true n := by
  obtain ⟨x, hx, hb, hs, hn⟩ := h.session
  refine ⟨⟨fun y hy => ?_, (writesOf_of_session? hx).trans hn⟩, ?_⟩
  · rw [hx] at hy
    cases hy
    rw [hb]
    exact Backend.untroubled_sound
  · rw [isRefreshed_of_session? hx, h.active, hs, decide_eq_true rfl]
    rfl

/-- To stop a session is to deliver first what is queued there: the active session, if it runs, serves all
writes that this gives rise to. -/
theorem stop_refreshes {x : Session} (h : s.Serving a n) (hx : s.session? id = some x) (hw : x.Wired) :
    (∀ k ∈ (stop id s).1, k.result ≠ .crashed) ∧ ∃ y, (stop id s).2.session? a = some y ∧
      y.writes = n + 2 * (stop id s).1.countP (·.refreshes x.workers) := by
  obtain ⟨u, hu, _⟩ := h.session
  have hset := Tallies.settle h.tallied hx hw
  obtain ⟨z, hz, _⟩ := session?_of_map_eq (congrArg Program.sessions (settle_outline id s) :).symm hu
  have hn := (writesOf_of_session? hz).symm.trans hset.tallied.writes_eq
  refine ⟨hset.returned rfl, ?_⟩
  by_cases he : a = id
  · obtain ⟨y, hy, _, _, hwrites, _⟩ := session?_emptied (he ▸ hz)
    exact ⟨y, he ▸ hy, hwrites.trans hn⟩
  · exact ⟨z, (session?_emptied_of_ne _ he).trans hz, hn⟩

end Program

namespace World

variable {w : World} {id : SessionId}

/-- Deliveries at a session are refreshes as what its workers handled is. -/
theorem countP_deliveries {x : Session} {h : List Handled} (hx : w.program.session? id = some x)
    (hw : x.Wired) (hk : ∀ k ∈ h, ∃ v ∈ x.workers, v.number = k.worker) :
    (w.deliveries id h).countP Delivery.refreshes = h.countP (·.refreshes x.workers) := by
  induction h with
  | nil => rfl
  | cons k rest ih =>
    obtain ⟨v, hv, hn⟩ := hk k List.mem_cons_self
    have hkv : k.refreshes x.workers = v.listener.refreshes k.event := by
      rw [Handled.refreshes, ← hn, hw.find?_number hv, Option.any_some]
    rw [deliveries_cons hx hw hv hn, List.countP_cons, List.countP_cons, hkv,
      ih fun k' hk' => hk k' (List.mem_cons_of_mem _ hk')]
    rfl

end World

end SessionTrail

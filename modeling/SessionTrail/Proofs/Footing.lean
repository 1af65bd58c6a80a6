import SessionTrail.Proofs.Attachment
import SessionTrail.Proofs.Enrichers
import SessionTrail.Proofs.Race
import SessionTrail.Proofs.Trouble

/-!
# What a race stands on

What the steps of an installation leave at the session and with the installer. The session runs and can
be reached; it has the one listener that the installer has attached, or none. The installer has written
down how it stands with the session, and the reporter holds the one enricher that has been registered for
the session since the race began, or none.
-/
namespace SessionTrail

open Program

/-- The enrichers of a session that were registered after the first `n` processors. -/
def Program.enrichersSince (s : Program) (n : Nat) (id : SessionId) : List (ProcessorId × Processor) :=
  s.reporter.processors.filter fun row =>
    match row.2 with
    | .enricher e => n ≤ row.1.val && e.session = id
    | .rule _ => false

/-- A session with a listener that may be attached to it. -/
def Session.withListener (x : Session) : Option Listener → Session
  | none => x
  | some l => x.addWorker l

/-- A running session that never crashes, at which an installer has a listener or none. -/
structure Session.Hosts (y : Session) (g : InstallerId) (made : Nat) (l? : Option Listener) : Prop where
  running : y.stopped = false
  calm : y.backend.Calm
  young : ∀ w ∈ y.workers, w.listener.id.val < made
  base : ∃ x : Session, y.core = (x.withListener l?).core ∧ x.attachedBy g = 0 ∧
    ∀ l ∈ l?, l.owner = some g ∧ ∀ w ∈ x.workers, w.listener.id ≠ l.id

/-- A session at which an installer has a listener or none can be reached. -/
structure Program.Hosting (s : Program) (g : InstallerId) (id : SessionId) (l? : Option Listener) :
    Prop where
  session : ∃ y, s.session? id = some y ∧ y.Hosts g s.listeners l?
  reachable : s.isReachable id = true

/-- How an installer stands with a session, and the number of the enricher that was registered for that
after the first `n` processors. -/
structure Program.Ledger (s : Program) (n : Nat) (g : InstallerId) (id : SessionId)
    (st : Option Standing) (p? : Option ProcessorId) : Prop where
  made : (s.installer? g).isSome = true
  distinct : ∀ i, s.installer? g = some i → i.standings.Distinct
  standing : s.standing? g id = st
  others : ∀ id' p, id' ≠ id → s.standing? g id' = some (.installed p) → p.val < n
  registered : n ≤ s.reporter.registrations
  enrichers : (s.enrichersSince n id).map (·.1) = p?.toList

/-- What a race stands on: how the installer stands with the session, its listener there and the number of
its enricher. -/
structure Program.Footing (s : Program) (n : Nat) (g : InstallerId) (id : SessionId)
    (st : Option Standing) (l? : Option Listener) (p? : Option ProcessorId) : Prop where
  ledger : s.Ledger n g id st p?
  hosting : s.Hosting g id l?

namespace Session.Hosts

variable {y z : Session} {g : InstallerId} {made : Nat} {l? : Option Listener}

/-- The installer has as many listeners there as it has attached. -/
theorem attachedBy_eq (h : y.Hosts g made l?) : y.attachedBy g = l?.toList.length := by
  obtain ⟨x, hc, hz, hl⟩ := h.base
  have hw : y.workers = (x.withListener l?).workers := (congrArg Session.workers hc :)
  rw [Session.attachedBy_of_workers_eq hw]
  cases l? with
  | none => exact hz
  | some l =>
    have hsum := Session.attachedBy_append (x.addWorker_workers l) g
    rw [hz, Session.nextWorker, if_pos (hl l rfl).1] at hsum
    exact hsum

theorem of_core_eq (h : y.Hosts g made l?) (hc : z.core = y.core) : z.Hosts g made l? := by
  obtain ⟨x, hx, hz, hl⟩ := h.base
  refine ⟨?_, ?_, ?_, x, hc.trans hx, hz, hl⟩
  · rw [show z.stopped = y.stopped from (congrArg Session.stopped hc :)]
    exact h.running
  · rw [show z.backend = y.backend from (congrArg Session.backend hc :)]
    exact h.calm
  · rw [show z.workers = y.workers from (congrArg Session.workers hc :)]
    exact h.young

theorem mono (h : y.Hosts g made l?) {made' : Nat} (hm : made ≤ made') : y.Hosts g made' l? :=
  ⟨h.running, h.calm, fun w hw => Nat.lt_of_lt_of_le (h.young w hw) hm, h.base⟩

/-- A new listener of the installer is attached. -/
theorem addWorker (h : y.Hosts g made none) {l : Listener} (hl : l.id.val = made)
    (ho : l.owner = some g) (hz : z.core = (y.addWorker l).core) : z.Hosts g (made + 1) (some l) := by
  have hfree : y.attachedBy g = 0 := h.attachedBy_eq
  have hw : z.workers = y.workers ++ [y.nextWorker l] := (congrArg Session.workers hz :)
  refine ⟨?_, ?_, fun w hm => ?_, y, hz, hfree, fun k hk => ?_⟩
  · rw [show z.stopped = y.stopped from (congrArg Session.stopped hz :)]
    exact h.running
  · rw [show z.backend = y.backend from (congrArg Session.backend hz :)]
    exact h.calm
  · rw [hw, List.mem_append] at hm
    rcases hm with hm | hm
    · exact Nat.lt_succ_of_lt (h.young w hm)
    · rw [List.mem_singleton.mp hm]
      exact Nat.lt_succ_of_le (Nat.le_of_eq hl)
  · rw [← Option.mem_some.mp hk]
    refine ⟨ho, fun w hm he => ?_⟩
    have hlt := h.young w hm
    rw [he, hl] at hlt
    exact Nat.lt_irrefl _ hlt

end Session.Hosts

namespace Program

variable {s t : Program} {n : Nat} {g : InstallerId} {id : SessionId} {l? : Option Listener}
  {st : Option Standing} {p? : Option ProcessorId}

/-! ## At the session -/

namespace Hosting

theorem of_sessions_eq (h : s.Hosting g id l?) (hs : t.sessions = s.sessions)
    (ha : t.active = s.active) (hl : t.listeners = s.listeners) : t.Hosting g id l? := by
  obtain ⟨y, hy, hh⟩ := h.session
  refine ⟨⟨y, ?_, ?_⟩, ?_⟩
  · rw [session?, hs]
    exact hy
  · rw [hl]
    exact hh
  · have hr := h.reachable
    rw [isReachable_iff] at hr ⊢
    rw [session?, hs, ha]
    exact hr

/-- The session is replaced by one that is held as it is. -/
theorem set (h : s.Hosting g id l?) {y : Session} (hy : s.session? id = some y) (z : Session)
    (held : z.held = y.held) (home : z.home = y.home) {l?' : Option Listener} {made : Nat}
    (hz : z.Hosts g made l?') :
    ({ s with sessions := s.sessions.set id z, listeners := made } : Program).Hosting g id l?' := by
  refine ⟨⟨z, Table.get?_set_self _ _ _, hz⟩, ?_⟩
  obtain ⟨x, hx, hr⟩ := isReachable_iff.mp h.reachable
  rw [hy] at hx
  cases hx
  refine isReachable_iff.mpr ⟨z, Table.get?_set_self _ _ _, ?_⟩
  rw [held, home]
  exact hr

theorem not_over (h : s.Hosting g id l?) : s.isOver id = false := by
  obtain ⟨y, hy, hh⟩ := h.session
  rw [isOver, h.reachable, hasStopped, hy, Option.any_some, hh.running]
  rfl

end Hosting

/-! ## With the installer and the reporter -/

namespace Ledger

theorem of_installers_eq (h : s.Ledger n g id st p?) (hi : t.installers = s.installers)
    (hr : t.reporter = s.reporter) : t.Ledger n g id st p? := by
  have hst := standing?_of_installers_eq hi
  constructor
  · rw [installer?, hi]
    exact h.made
  · intro i hg
    rw [installer?, hi] at hg
    exact h.distinct i hg
  · rw [hst]
    exact h.standing
  · intro id' p hne hp
    rw [hst] at hp
    exact h.others id' p hne hp
  · rw [hr]
    exact h.registered
  · rw [enrichersSince, hr]
    exact h.enrichers

/-- What is forgotten are other sessions, and the numbers that go with them are old. -/
theorem dropGone (h : s.Ledger n g id st p?) (hover : s.isOver id = false) :
    (s.dropGone g).2.Ledger n g id st p? ∧ ∀ p ∈ (s.dropGone g).1, p.val < n := by
  obtain ⟨i, hi⟩ := Option.isSome_iff_exists.mp h.made
  have hdrop : s.dropGone g =
      ((s.goneRows i).filterMap (·.2.processor?), s.modifyInstaller g s.keepRows) := by
    simp only [Program.dropGone, hi]
  have hd := h.distinct i hi
  have hq : (s.modifyInstaller g s.keepRows).installer? g = some (s.keepRows i) := by
    rw [installer?, modifyInstaller, Table.get?_modify, if_pos rfl]
    exact congrArg (Option.map s.keepRows) hi
  have hst : ∀ id', (s.modifyInstaller g s.keepRows).standing? g id' =
      (s.standing? g id').filter fun st => !s.isGone id' st := fun id' => by
    rw [standing?, hq, standing?, hi, Option.bind_some, Option.bind_some]
    exact Table.get?_filter hd _ id'
  have hstays : ∀ st, s.isGone id st = false := fun st => by
    by_cases he : st = .installing
    · rw [he]
      rfl
    · exact (isGone_eq s id he).trans hover
  rw [hdrop]
  refine ⟨⟨?_, fun j hj => ?_, ?_, fun id' p hne hp => ?_, h.registered, h.enrichers⟩, fun p hp => ?_⟩
  · rw [hq, Option.isSome_some]
  · rw [hq] at hj
    cases hj
    exact hd.filter _
  · rw [hst, h.standing]
    cases st with
    | none => rfl
    | some st => rw [Option.filter_some, hstays]; rfl
  · rw [hst] at hp
    exact h.others id' p hne (Option.filter_eq_some_iff.mp hp).1
  · obtain ⟨⟨id', st'⟩, hrow, hnumber⟩ := List.mem_filterMap.mp hp
    obtain ⟨hrow, hgone⟩ := List.mem_filter.mp hrow
    cases st' with
    | installed p' =>
      cases hnumber
      refine h.others id' p (fun he => ?_) ?_
      · simp only [he, hstays, Bool.false_eq_true] at hgone
      · rw [standing?, hi, Option.bind_some]
        exact Table.get?_of_mem hd hrow
    | installing | stranded => cases hnumber

/-- An old number is removed. -/
theorem unregister (h : s.Ledger n g id st p?) {p : ProcessorId} (hp : p.val < n) :
    (s.unregister p).2.Ledger n g id st p? := by
  refine ⟨h.made, h.distinct, h.standing, h.others, h.registered, ?_⟩
  rw [← h.enrichers]
  simp only [enrichersSince, Program.unregister, Reporter.unregister, List.filter_filter]
  congr 1
  refine List.filter_congr fun row _ => ?_
  rcases row with ⟨q, e | r⟩
  · simp only [Bool.and_eq_left_iff_imp, Bool.and_eq_true, decide_eq_true_eq]
    rintro ⟨hq, _⟩ rfl
    exact Nat.lt_irrefl _ (Nat.lt_of_lt_of_le hp hq)
  · rfl

/-- The installer writes down how it stands with the session now. -/
theorem setStanding (h : s.Ledger n g id st p?) (st' : Option Standing) :
    (Program.setStanding g id st' s).Ledger n g id st' p? := by
  have hst := fun id' => standing?_setStanding h.made id st' g id'
  refine ⟨?_, fun i hi => ?_, ?_, fun id' p hne hp => ?_, h.registered, h.enrichers⟩
  · rw [isSome_installer?_setStanding]
    exact h.made
  · exact distinct_setStanding h.distinct g id st' i hi
  · rw [hst, if_pos ⟨rfl, rfl⟩]
  · rw [hst, if_neg fun hc => hne hc.2] at hp
    exact h.others id' p hne hp

/-- The first enricher of the session is registered. -/
theorem register (h : s.Ledger n g id st none) {e : Enricher} (he : e.session = id) :
    (s.register (.enricher e)).2.Ledger n g id st (some (s.register (.enricher e)).1) := by
  refine ⟨h.made, h.distinct, h.standing, h.others, Nat.le_succ_of_le h.registered, ?_⟩
  have hnone : s.enrichersSince n id = [] := List.map_eq_nil_iff.mp h.enrichers
  have hnew : (s.register (.enricher e)).2.enrichersSince n id =
      s.enrichersSince n id ++ [((s.register (.enricher e)).1, .enricher e)] := by
    simp only [enrichersSince, Program.register, Reporter.register, List.filter_append]
    simp only [List.filter_cons, List.filter_nil, h.registered, he, decide_true, Bool.and_self, if_true]
  rw [hnew, hnone]
  rfl

end Ledger

/-! ## What the steps leave -/

namespace Footing

theorem dropGone (h : s.Footing n g id st l? p?) :
    (s.dropGone g).2.Footing n g id st l? p? ∧ ∀ p ∈ (s.dropGone g).1, p.val < n := by
  obtain ⟨hl, hp⟩ := h.ledger.dropGone h.hosting.not_over
  refine ⟨⟨hl, h.hosting.of_sessions_eq ?_ ?_ ?_⟩, hp⟩ <;> unfold Program.dropGone <;> split <;> rfl

theorem unregister (h : s.Footing n g id st l? p?) {p : ProcessorId} (hp : p.val < n) :
    (s.unregister p).2.Footing n g id st l? p? :=
  ⟨h.ledger.unregister hp, h.hosting.of_sessions_eq rfl rfl rfl⟩

theorem setStanding (h : s.Footing n g id st l? p?) (st' : Option Standing) :
    (Program.setStanding g id st' s).Footing n g id st' l? p? :=
  ⟨h.ledger.setStanding st', h.hosting.of_sessions_eq rfl rfl rfl⟩

theorem register (h : s.Footing n g id st l? none) {e : Enricher} (he : e.session = id) :
    (s.register (.enricher e)).2.Footing n g id st l? (some (s.register (.enricher e)).1) :=
  ⟨h.ledger.register he, h.hosting.of_sessions_eq rfl rfl rfl⟩

theorem set (h : s.Footing n g id st l? p?) {y : Session} (hy : s.session? id = some y) (z : Session)
    (held : z.held = y.held) (home : z.home = y.home) {l?' : Option Listener} {made : Nat}
    (hz : z.Hosts g made l?') :
    ({ s with sessions := s.sessions.set id z, listeners := made } : Program).Footing n g id st l?' p? :=
  ⟨h.ledger.of_installers_eq rfl rfl, h.hosting.set hy z held home hz⟩

/-- A read or a write is served or refused, and it leaves the installer its listener. -/
theorem call (h : s.Footing n g id st l? p?) {α : Type} {m : Action Session CallError α}
    (hk : m.Keeps Session.core) (hm : m.Serves (·.backend.Calm)) :
    (∃ a t, (onSession id m).run s = (.done a, t) ∧ t.Footing n g id st l? p?) ∨
      ∃ e t, (onSession id m).run s = (.failed e, t) ∧ t.Footing n g id st l? p? := by
  obtain ⟨y, hy, hh⟩ := h.hosting.session
  have hc := hk y
  have hf := h.set hy (m.run y).2 (congrArg Session.held hc :) (congrArg Session.home hc :)
    (hh.of_core_eq hc)
  have hs := (hm y hh.calm).1
  rw [run_onSession hy]
  rcases hr : (m.run y).1 with a | e | _
  · exact .inl ⟨a, _, rfl, hf⟩
  · exact .inr ⟨e, _, rfl, hf⟩
  · exact absurd hr hs

/-- A new listener is attached, or the session refuses it. -/
theorem attach (h : s.Footing n g id st none p?) (behaviour : Behaviour) :
    (∃ t, (Program.attach id (s.newListener behaviour (some g)).1).run
        (s.newListener behaviour (some g)).2 = (.done (), t) ∧
      t.Footing n g id st (some (s.newListener behaviour (some g)).1) p?) ∨
    ∃ e t, (Program.attach id (s.newListener behaviour (some g)).1).run
        (s.newListener behaviour (some g)).2 = (.failed e, t) ∧ t.Footing n g id st none p? := by
  obtain ⟨y, hy, hh⟩ := h.hosting.session
  have hy' : (s.newListener behaviour (some g)).2.session? id = some y := hy
  obtain ⟨l, hl⟩ : ∃ l, l = (s.newListener behaviour (some g)).1 := ⟨_, rfl⟩
  rw [← hl, Program.attach, run_onSession hy']
  obtain ⟨_, _, ha⟩ | ⟨e, ha⟩ | ⟨hcrash, _⟩ := y.attach_cases l
  · rw [ha]
    have hn : ((y.note .attach).addWorker l).Hosts g (s.listeners + 1) (some l) :=
      hh.addWorker (by rw [hl]; rfl) (by rw [hl]; rfl) rfl
    exact .inl ⟨_, rfl, h.set hy ((y.note .attach).addWorker l) rfl rfl hn⟩
  · rw [ha]
    have hn : (y.note .attach).Hosts g s.listeners none := hh.of_core_eq rfl
    exact .inr ⟨e, _, rfl, h.set hy (y.note .attach) rfl rfl (hn.mono (Nat.le_succ _))⟩
  · exact absurd hcrash (hh.calm _ _)

/-- The listener is taken back, or the session refuses that. -/
theorem rollBack {l : Listener} (h : s.Footing n g id st (some l) p?) (error : CallError) :
    ∃ stranded t, (Program.rollBack id l error).run s = (.failed ⟨error, stranded⟩, t) ∧
      t.Footing n g id st (if stranded then some l else none) p? := by
  obtain ⟨y, hy, hh⟩ := h.hosting.session
  obtain ⟨x, hc, hx, hl⟩ := hh.base
  have hfresh := (hl l rfl).2
  rw [run_rollBack_of_attached error hy hc hfresh]
  rcases ht : y.backend.trouble y.history .detach with _ | (e | _)
  · have hback : ((y.note .detach).endWorker (x.nextWorker l)).core = (x.tryWorker l).core := by
      rw [Session.endWorker_core, show (y.note .detach).core = (x.addWorker l).core from hc,
        ← Session.endWorker_core]
      rfl
    refine ⟨false, _, rfl, h.set hy ((y.note .detach).endWorker (x.nextWorker l)) rfl rfl
      ⟨hh.running, hh.calm, fun w hw => ?_, x.tryWorker l, hback, ?_, fun _ hk => nomatch hk⟩⟩
    · exact hh.young w (List.mem_of_mem_erase hw)
    · rw [Session.attachedBy_of_workers_eq (tryWorker_workers hfresh)]
      exact hx
  · have hn : (y.note .detach).Hosts g s.listeners (some l) := hh.of_core_eq rfl
    exact ⟨true, _, rfl, h.set hy (y.note .detach) rfl rfl hn⟩
  · exact absurd ht (hh.calm y.history .detach)

end Footing

end Program

end SessionTrail

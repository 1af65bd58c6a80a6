import SessionTrail.Proofs.Narrow
import SessionTrail.Proofs.Standing

/-!
# Listeners and standings

An installer that stands with a running session has one listener at it, and none if it does not. The
exceptions are counted: an installation that crashes behind the attachment of its listener leaves it
there and forgets the session.
-/
namespace SessionTrail

open Program World

/-- The number of a session's workers whose listeners an installer made. -/
def Session.attachedBy (x : Session) (g : InstallerId) : Nat :=
  x.workers.countP (·.listener.owner = some g)

/-- Whether an activation crashes and leaves its listener at the session. -/
def Activation.leaves (a : Activation) : Bool :=
  a.run.1 = .crashed &&
    (a.before.session? a.session).any fun x => (x.backend.trouble x.history .attach).isNone

/-- The number of listeners that some activations of an installer left at a session by crashing. -/
def leaks (as : List Activation) (g : InstallerId) (id : SessionId) : Nat :=
  as.countP fun a => a.installer = g ∧ a.session = id ∧ a.leaves = true

theorem leaks_append (as bs : List Activation) (g : InstallerId) (id : SessionId) :
    leaks (as ++ bs) g id = leaks as g id + leaks bs g id := List.countP_append

namespace Session

theorem attachedBy_of_workers_eq {x y : Session} (h : y.workers = x.workers) (g : InstallerId) :
    y.attachedBy g = x.attachedBy g := by
  simp only [attachedBy, h]

theorem attachedBy_of_nil {x : Session} (h : x.workers = []) (g : InstallerId) :
    x.attachedBy g = 0 := by
  simp only [attachedBy, h, List.countP_nil]

theorem attachedBy_append {x y : Session} {w : Worker} (h : y.workers = x.workers ++ [w])
    (g : InstallerId) :
    y.attachedBy g = x.attachedBy g + if w.listener.owner = some g then 1 else 0 := by
  simp only [attachedBy, h, List.countP_append, List.countP_singleton, decide_eq_true_eq]

theorem attachedBy_erase {x y : Session} {w : Worker} (h : y.workers = x.workers.erase w)
    (hw : w.listener.owner = none) (g : InstallerId) : y.attachedBy g = x.attachedBy g := by
  simp only [attachedBy, h]
  by_cases hm : w ∈ x.workers
  · rw [(List.perm_cons_erase hm).countP_eq, List.countP_cons_of_neg]
    simp [hw]
  · rw [List.erase_of_not_mem hm]

end Session

namespace Program

/-- How many listeners of an installer there are at a running session. -/
structure Balance (x : Session) (g : InstallerId) (standing : Option Standing) (reachable : Bool)
    (left : Nat) : Prop where
  at_most : x.attachedBy g ≤ left + 1
  stands : standing.isSome = true → x.attachedBy g = left + 1
  free : standing = none → reachable = true → x.attachedBy g = left

theorem Balance.of_count {x y : Session} {g : InstallerId} {standing : Option Standing}
    {reachable reachable' : Bool} {left : Nat} (h : Balance x g standing reachable left)
    (count : y.attachedBy g = x.attachedBy g) (reach : reachable' = true → reachable = true) :
    Balance y g standing reachable' left := by
  constructor
  · rw [count]
    exact h.at_most
  · intro hs
    rw [count]
    exact h.stands hs
  · intro hn hr
    rw [count]
    exact h.free hn (reach hr)

/-- The invariant of programs whose installers have left some listeners by crashing. -/
structure Sound (left : InstallerId → SessionId → Nat) (s : Program) : Prop where
  installers_dense : ∀ g, (s.installer? g).isSome = true ↔ g.val < s.installers.rows.length
  standings_distinct : ∀ g i, s.installer? g = some i → i.standings.Distinct
  listener_lt : ∀ id x, s.session? id = some x → ∀ w ∈ x.workers, w.listener.id.val < s.listeners
  trail : ∀ id x, s.session? id = some x → ∀ w ∈ x.workers,
    w.listener.owner = none ∨ ∃ keyPrefix, w.listener.behaviour = .trail keyPrefix
  stopped_empty : ∀ id x, s.session? id = some x → x.stopped = true → x.workers = []
  settled : ∀ g id, s.standing? g id ≠ some .installing
  known : ∀ g id, s.session? id = none → s.standing? g id = none ∧ left g id = 0
  balance : ∀ g id x, s.session? id = some x → x.stopped = false →
    Balance x g (s.standing? g id) (s.isReachable id) (left g id)

namespace Sound

variable {left : InstallerId → SessionId → Nat} {s t : Program}

/-- Steps that only narrow what is there keep the invariant. -/
theorem narrow (h : Sound left s) (n : Narrows s t) : Sound left t := by
  have hi : ∀ g, t.installer? g = s.installer? g := fun g => by
    simp only [installer?, n.installers_eq]
  have hst : ∀ g id, t.standing? g id = s.standing? g id := fun g id =>
    standing?_of_installers_eq n.installers_eq g id
  constructor
  · intro g
    rw [hi, n.installers_eq]
    exact h.installers_dense g
  · intro g i hg
    rw [hi] at hg
    exact h.standings_distinct g i hg
  · intro id y hy w hw
    obtain ⟨x, hx, _, ⟨he, _⟩ | ⟨he, _⟩⟩ := n.session id y hy
    · rw [he] at hw
      cases hw
    · rw [he] at hw
      exact Nat.lt_of_lt_of_le (h.listener_lt id x hx w hw) n.listeners_le
  · intro id y hy w hw
    obtain ⟨x, hx, _, ⟨he, _⟩ | ⟨he, _⟩⟩ := n.session id y hy
    · rw [he] at hw
      cases hw
    · rw [he] at hw
      exact h.trail id x hx w hw
  · intro id y hy hs
    obtain ⟨x, hx, _, ⟨he, _⟩ | ⟨he, hxs⟩⟩ := n.session id y hy
    · exact he
    · rw [he]
      rw [hxs] at hs
      exact h.stopped_empty id x hx hs
  · intro g id
    rw [hst]
    exact h.settled g id
  · intro g id hn
    rw [hst]
    have hk := n.known id
    rw [hn] at hk
    exact h.known g id (Option.isNone_iff_eq_none.mp (by simpa using hk.symm))
  · intro g id y hy hs
    obtain ⟨x, hx, _, ⟨_, hys⟩ | ⟨he, hxs⟩⟩ := n.session id y hy
    · rw [hys] at hs
      cases hs
    · rw [hxs] at hs
      rw [hst]
      exact (h.balance g id x hx hs).of_count (Session.attachedBy_of_workers_eq he g) (n.reachable id)

theorem modifySession (h : Sound left s) {id : SessionId} {f : Session → Session}
    (same : ∀ x, (f x).stopped = x.stopped ∧ (f x).held = x.held ∧ (f x).home = x.home)
    (fresh : ∀ x, s.session? id = some x → ∀ w ∈ (f x).workers,
      w ∈ x.workers ∨ w.listener.id.val < s.listeners ∧ w.listener.owner = none)
    (empty : ∀ x, s.session? id = some x → x.stopped = true → x.workers = [] → (f x).workers = [])
    (count : ∀ x g, s.session? id = some x → (f x).attachedBy g = x.attachedBy g) :
    Sound left (s.modifySession id f) := by
  constructor
  · exact h.installers_dense
  · exact h.standings_distinct
  · intro id' y hy w hw
    obtain ⟨x, hx, ⟨rfl, rfl⟩ | ⟨_, rfl⟩⟩ := modifySession_cases hy
    · exact (fresh x hx w hw).elim (h.listener_lt id' x hx w) And.left
    · exact h.listener_lt id' y hx w hw
  · intro id' y hy w hw
    obtain ⟨x, hx, ⟨rfl, rfl⟩ | ⟨_, rfl⟩⟩ := modifySession_cases hy
    · exact (fresh x hx w hw).elim (h.trail id' x hx w) fun ho => .inl ho.2
    · exact h.trail id' y hx w hw
  · intro id' y hy hs
    obtain ⟨x, hx, ⟨rfl, rfl⟩ | ⟨_, rfl⟩⟩ := modifySession_cases hy
    · rw [(same x).1] at hs
      exact empty x hx hs (h.stopped_empty id' x hx hs)
    · exact h.stopped_empty id' y hx hs
  · exact h.settled
  · intro g id' hn
    refine h.known g id' ?_
    rw [session?_modifySession] at hn
    split at hn
    · exact Option.map_eq_none_iff.mp hn
    · exact hn
  · intro g id' y hy hs
    rw [isReachable_modifySession s id id' (fun x => (same x).2.1) fun x => (same x).2.2]
    obtain ⟨x, hx, ⟨rfl, rfl⟩ | ⟨_, rfl⟩⟩ := modifySession_cases hy
    · rw [(same x).1] at hs
      exact (h.balance g id' x hx hs).of_count (count x g hx) id
    · exact h.balance g id' y hx hs

theorem start (h : Sound left s) (id : SessionId) (settings : Settings) (backend : Backend)
    (home : Home) : Sound left (s.start id settings backend home) := by
  obtain hsame | ⟨hn, x, hxw, _, _, _, ht⟩ := start_cases s id settings backend home
  · rw [hsame]
    exact h
  · rw [ht]
    constructor
    · exact h.installers_dense
    · exact h.standings_distinct
    · intro id' y hy w hw
      rcases set_cases hy with ⟨_, rfl⟩ | ⟨_, hy⟩
      · rw [hxw] at hw
        cases hw
      · exact h.listener_lt id' y hy w hw
    · intro id' y hy w hw
      rcases set_cases hy with ⟨_, rfl⟩ | ⟨_, hy⟩
      · rw [hxw] at hw
        cases hw
      · exact h.trail id' y hy w hw
    · intro id' y hy hs
      rcases set_cases hy with ⟨_, rfl⟩ | ⟨_, hy⟩
      · exact hxw
      · exact h.stopped_empty id' y hy hs
    · exact h.settled
    · intro g id' hn'
      refine h.known g id' ?_
      rw [session?, Table.get?_set] at hn'
      split at hn'
      · cases hn'
      · exact hn'
    · intro g id' y hy hs
      rcases set_cases hy with ⟨rfl, rfl⟩ | ⟨he, hy⟩
      · -- The identity is new, so no installer has dealt with it.
        obtain ⟨hst, hl⟩ := h.known g id' hn
        have hz : y.attachedBy g = 0 := Session.attachedBy_of_nil hxw g
        refine ⟨by omega, fun hsome => ?_, fun _ _ => by omega⟩
        change (s.standing? g id').isSome = true at hsome
        rw [hst] at hsome
        cases hsome
      · refine (h.balance g id' y hy hs).of_count rfl fun hr => ?_
        obtain ⟨z, hz, hor⟩ := isReachable_iff.mp hr
        obtain ⟨hid, _⟩ | ⟨_, hz⟩ := set_cases hz
        · exact absurd hid he
        · refine isReachable_iff.mpr ⟨z, hz, hor.imp_right (Or.imp_left fun ha => ?_)⟩
          simp only at ha
          split at ha
          · exact absurd (Option.some.inj ha).symm he
          · exact ha

/-- A new installer's identity is one that no other has. -/
theorem installer?_fresh (h : Sound left s) (config : Config) :
    s.installer? (s.newInstaller config).1 = none := by
  have hd := h.installers_dense (s.newInstaller config).1
  rw [← Option.not_isSome_iff_eq_none]
  exact fun hs => Nat.lt_irrefl _ (hd.mp hs)

theorem standing?_newInstaller (h : Sound left s) (config : Config) (g : InstallerId)
    (id : SessionId) : (s.newInstaller config).2.standing? g id = s.standing? g id := by
  simp only [standing?, installer?_newInstaller]
  split
  · rename_i he
    rw [he, h.installer?_fresh]
    rfl
  · rfl

theorem newInstaller (h : Sound left s) (config : Config) : Sound left (s.newInstaller config).2 := by
  have hq := installer?_newInstaller s config
  have hl : (s.newInstaller config).2.installers.rows.length = s.installers.rows.length + 1 :=
    Table.length_set_of_get?_eq_none _ (h.installer?_fresh config)
  have hst := h.standing?_newInstaller config
  constructor
  · intro g
    rw [hq, hl]
    split
    · rename_i he
      simp [he, Program.newInstaller]
    · rename_i he
      rw [h.installers_dense]
      have hne : g.val ≠ s.installers.rows.length := fun hv => he (congrArg InstallerId.mk hv)
      omega
  · intro g i hi
    rw [hq] at hi
    split at hi
    · cases hi
      exact Table.distinct_empty
    · exact h.standings_distinct g i hi
  · exact h.listener_lt
  · exact h.trail
  · exact h.stopped_empty
  · intro g id
    rw [hst]
    exact h.settled g id
  · intro g id hn
    rw [hst]
    exact h.known g id hn
  · intro g id x hx hs
    rw [hst]
    exact h.balance g id x hx hs

theorem forgetGone (h : Sound left s) (g : InstallerId) : Sound left (Program.forgetGone g s).2 := by
  obtain ⟨hs, ha, hl, _, _, _⟩ := forgetGone_fields g s
  have hq : ∀ id, (Program.forgetGone g s).2.session? id = s.session? id := fun id => by
    simp only [session?, hs]
  have hr : ∀ id, (Program.forgetGone g s).2.isReachable id = s.isReachable id := fun id => by
    simp only [isReachable, hq, ha]
  have hst := forgetGone_standing? fun i hi => h.standings_distinct g i hi
  constructor
  · intro g'
    rw [forgetGone_installers_length, ← h.installers_dense g', isSome_installer?_forgetGone]
  · intro g' i hi
    cases hg : s.installer? g with
    | none =>
      rw [forgetGone_of_none hg] at hi
      exact h.standings_distinct g' i hi
    | some j =>
      rw [forgetGone_eq hg] at hi
      simp only [installer?, Table.get?_modify] at hi
      split at hi
      · obtain ⟨k, hk, rfl⟩ := Option.map_eq_some_iff.mp hi
        exact (h.standings_distinct g' k hk).filter _
      · exact h.standings_distinct g' i hi
  · intro id x hx
    rw [hq] at hx
    rw [hl]
    exact h.listener_lt id x hx
  · intro id x hx
    rw [hq] at hx
    exact h.trail id x hx
  · intro id x hx
    rw [hq] at hx
    exact h.stopped_empty id x hx
  · intro g' id
    rw [hst]
    split
    · intro hf
      obtain ⟨hf, _⟩ := Option.filter_eq_some_iff.mp hf
      exact h.settled g id hf
    · exact h.settled g' id
  · intro g' id hn
    rw [hq] at hn
    obtain ⟨hk, hz⟩ := h.known g' id hn
    refine ⟨?_, hz⟩
    rw [hst]
    split
    · rename_i he
      rw [← he, hk, Option.filter_none]
    · exact hk
  · intro g' id x hx hrun
    rw [hq] at hx
    rw [hr, hst]
    have hb := h.balance g' id x hx hrun
    split
    · rename_i he
      rw [he] at hb ⊢
      refine ⟨hb.at_most, fun hsome => hb.stands ?_, fun hnone hreach => ?_⟩
      · exact Option.isSome_of_isSome_filter _ _ hsome
      · cases hs' : s.standing? g id with
        | none => exact hb.free hs' hreach
        | some st =>
          rw [hs', Option.filter_some] at hnone
          split at hnone
          · cases hnone
          · -- It is forgotten only if it is over, but it runs and can be reached.
            rename_i hgone
            have hne : st ≠ .installing := fun hi => h.settled g id (hi ▸ hs')
            rw [isGone_eq s id hne] at hgone
            simp [isOver, hreach, hasStopped, hx, hrun] at hgone
    · exact hb

/-- The count that an installation adds for its own installer. -/
theorem attachedBy_of_effect {l : Listener} {r : Outcome InstallFailure ProcessorId} {x y : Session}
    {g : InstallerId} (h : InstallEffect l r x y) (hl : l.owner = some g) (g' : InstallerId) :
    y.attachedBy g' = x.attachedBy g' + if g' = g ∧ stays x r = true then 1 else 0 := by
  have hw := h.workers
  cases hs : stays x r with
  | false =>
    rw [hs] at hw
    simp only [Bool.false_eq_true, if_false, List.append_nil] at hw
    simp only [Session.attachedBy_of_workers_eq hw, Bool.false_eq_true, and_false, if_false,
      Nat.add_zero]
  | true =>
    rw [hs] at hw
    simp only [if_true] at hw
    rw [Session.attachedBy_append hw]
    simp only [Session.nextWorker, hl, Option.some.injEq, and_true, eq_comm]

theorem attachedBy_of_others {id id' : SessionId} {l : Listener}
    {r : Outcome InstallFailure ProcessorId} {x y : Session} {g g' : InstallerId}
    (hne : id' ≠ id → y.core = x.core) (heq : id' = id → InstallEffect l r x y)
    (hl : l.owner = some g) (hg : ¬ (g' = g ∧ id' = id)) : y.attachedBy g' = x.attachedBy g' := by
  by_cases he : id' = id
  · rw [attachedBy_of_effect (heq he) hl g', if_neg fun h => hg ⟨h.1, he⟩, Nat.add_zero]
  · exact Session.attachedBy_of_workers_eq (congrArg Session.workers (hne he) :) g'

theorem balance_of_effect {l : Listener} {r : Outcome InstallFailure ProcessorId} {x y : Session}
    {g : InstallerId} {n : Nat} {reachable : Bool} (h : InstallEffect l r x y)
    (hl : l.owner = some g) (hx : x.attachedBy g = n) :
    Balance y g (standingAfter r) reachable
      (n + if r = .crashed ∧ stays x r = true then 1 else 0) := by
  have hy := attachedBy_of_effect h hl g
  rw [hx] at hy
  rcases r with p | ⟨error, _ | _⟩ | _
  · simp only [stays, and_self, if_true] at hy
    exact ⟨by simp [hy], fun _ => by simp [hy], by intro h; cases h⟩
  · simp only [stays, Bool.false_eq_true, and_false, if_false] at hy
    exact ⟨by simp [hy], (by intro h; cases h), fun _ _ => by simp [hy]⟩
  · simp only [stays, and_self, if_true] at hy
    exact ⟨by simp [hy], fun _ => by simp [hy], by intro h; cases h⟩
  · simp only [true_and] at hy ⊢
    exact ⟨by omega, (by intro h; cases h), fun _ _ => hy⟩

/-- An installation keeps the invariant, if the listener that it leaves by crashing is counted. -/
theorem installed {u : Program} {g : InstallerId} {id : SessionId} {l : Listener} {e : Enricher}
    {r : Outcome InstallFailure ProcessorId} (h : Sound left s)
    (hin : Installs id l e (reserved s g id) r u) (hi : (s.installer? g).isSome = true)
    (hfree : s.standing? g id = none) (hl : l.owner = some g) (hlt : l.id.val = s.listeners)
    (hb : ∃ keyPrefix, l.behaviour = .trail keyPrefix)
    (hr : ∀ x, s.session? id = some x → s.isReachable id = true)
    {left' : InstallerId → SessionId → Nat}
    (hleft : ∀ g' id', left' g' id' = left g' id' + if g' = g ∧ id' = id ∧ r = .crashed ∧
      (s.session? id).any (stays · r) then 1 else 0) :
    Sound left' (setStanding g id (standingAfter r) u) := by
  have hfresh : ∀ x, (reserved s g id).session? id = some x →
      ∀ w ∈ x.workers, w.listener.id ≠ l.id := by
    intro x hx w hw he
    have hx' : s.session? id = some x := hx
    have hw' := h.listener_lt id x hx' w hw
    rw [he, hlt] at hw'
    exact Nat.lt_irrefl _ hw'
  have hst := standing?_after hin hi
  obtain ⟨_, hua, hul, _⟩ := hin.fields
  have heff : ∀ id' y, (setStanding g id (standingAfter r) u).session? id' = some y →
      ∃ x, s.session? id' = some x ∧ (id' ≠ id → y.core = x.core) ∧
        (id' = id → InstallEffect l r x y) := fun id' y hy => hin.effect hfresh hy
  have hframe : ∀ id' y, (setStanding g id (standingAfter r) u).session? id' = some y →
      ∃ x, s.session? id' = some x ∧ InstallFrame (id' = id) l x y := fun id' y hy => by
    obtain ⟨x, hx, hne, heq⟩ := heff id' y hy
    exact ⟨x, hx, .of_effect hne heq⟩
  constructor
  · intro g'
    rw [isSome_installer?_after hin, installers_length_after hin]
    exact h.installers_dense g'
  · exact distinct_after hin h.standings_distinct
  · intro id' y hy w hw
    have hle : (setStanding g id (standingAfter r) u).listeners = s.listeners + 1 := hul
    rw [hle]
    obtain ⟨x, hx, hf⟩ := hframe id' y hy
    rcases hf.worker w hw with hw | ⟨_, rfl, _⟩
    · exact Nat.lt_succ_of_lt (h.listener_lt id' x hx w hw)
    · exact Nat.lt_succ_of_le (Nat.le_of_eq hlt)
  · intro id' y hy w hw
    obtain ⟨x, hx, hf⟩ := hframe id' y hy
    rcases hf.worker w hw with hw | ⟨_, rfl, _⟩
    · exact h.trail id' x hx w hw
    · exact .inr hb
  · intro id' y hy hs
    obtain ⟨x, hx, hf⟩ := hframe id' y hy
    rw [hf.stopped] at hs
    refine List.eq_nil_iff_forall_not_mem.mpr fun w hw => ?_
    rcases hf.worker w hw with hw | ⟨_, _, hrun⟩
    · rw [h.stopped_empty id' x hx hs] at hw
      cases hw
    · rw [hrun] at hs
      cases hs
  · intro g' id'
    rw [hst]
    split
    · rcases r with _ | ⟨_, _ | _⟩ | _ <;> nofun
    · exact h.settled g' id'
  · intro g' id' hn
    have hk : (u.session? id').isSome = (s.session? id').isSome := hin.known id'
    have hu : u.session? id' = none := hn
    rw [hu] at hk
    have hn' : s.session? id' = none := Option.isNone_iff_eq_none.mp (by simpa using hk.symm)
    rw [hst, hleft]
    obtain ⟨hks, hkl⟩ := h.known g' id' hn'
    rw [hks, hkl]
    split
    · rename_i he
      obtain ⟨error, rfl⟩ := hin.of_none (show s.session? id = none from he.2 ▸ hn')
      simp [standingAfter]
    · rename_i he
      simp
      intro h1 h2
      exact absurd ⟨h1, h2⟩ he
  · intro g' id' y hy hs
    have hreach : (setStanding g id (standingAfter r) u).isReachable id' = true →
        s.isReachable id' = true := isReachable_of_sessions hua fun z hz => by
      obtain ⟨x, hx, hf⟩ := hframe id' z hz
      exact ⟨x, hx, hf.held, hf.home⟩
    obtain ⟨x, hx, hne, heq⟩ := heff id' y hy
    have hxs : x.stopped = false := (InstallFrame.of_effect hne heq).stopped ▸ hs
    have hb := h.balance g' id' x hx hxs
    rw [hst, hleft]
    -- The installation changes no count but its own installer's at its own session.
    by_cases hown : g' = g ∧ id' = id
    · obtain ⟨rfl, rfl⟩ := hown
      simp only [hx, and_self, if_true, Option.any_some, true_and]
      exact balance_of_effect (heq rfl) hl (hb.free hfree (hr x hx))
    · rw [if_neg hown, if_neg fun h => hown ⟨h.1, h.2.1⟩, Nat.add_zero]
      exact hb.of_count (attachedBy_of_others hne heq hl hown) hreach

theorem leaks_singleton (a : Activation) (g : InstallerId) (id : SessionId) :
    leaks [a] g id = if a.installer = g ∧ a.session = id ∧ a.leaves = true then 1 else 0 := by
  simp only [leaks, List.countP_singleton, decide_eq_true_eq]

/-- An activation keeps the invariant, if the listener that it may leave is counted. -/
theorem ensureInstalled (h : Sound left s) (g : InstallerId) (id : SessionId)
    (hr : ∀ x, s.session? id = some x → s.isReachable id = true) :
    Sound (fun g' id' => left g' id' + leaks [⟨g, id, s⟩] g' id')
      ((Program.ensureInstalled g id).run s).2 := by
  have ht := h.forgetGone g
  obtain ⟨hsess, hact, hlis, _⟩ := forgetGone_fields g s
  have hq : ∀ id', (Program.forgetGone g s).2.session? id' = s.session? id' := fun id' => by
    simp only [session?, hsess]
  obtain ⟨r, hrc, hrun, _⟩ | ⟨i, r, u, hi, hst, hin, _, hrun⟩ :=
    ensureInstalled_cases g id s (h.listener_lt id)
  · have hz : ∀ g' id', leaks [⟨g, id, s⟩] g' id' = 0 := fun g' id' => by
      have hl : Activation.leaves ⟨g, id, s⟩ = false := by
        simp only [Activation.leaves, Activation.run, hrun, hrc, decide_false, Bool.false_and]
      rw [leaks_singleton, hl]
      simp
    rw [hrun]
    simp only [hz, Nat.add_zero]
    exact ht
  · have hsome : ((Program.forgetGone g s).2.installer? g).isSome = true := by
      rw [hi, Option.isSome_some]
    have hfree : (Program.forgetGone g s).2.standing? g id = none := by
      rw [standing?, hi, Option.bind_some, hst]
    have hreach : ∀ x, (Program.forgetGone g s).2.session? id = some x →
        (Program.forgetGone g s).2.isReachable id = true := fun x hx => by
      rw [hq] at hx
      have hr' := hr x hx
      simp only [isReachable, hq, hact] at hr' ⊢
      exact hr'
    have hleaves : Activation.leaves ⟨g, id, s⟩ = true ↔
        r = .crashed ∧ (s.session? id).any (stays · r) = true := by
      rw [Activation.leaves, Activation.run, hrun]
      rcases r with _ | ⟨_, _ | _⟩ | _ <;> simp [replyAfter, stays]
    rw [hrun]
    refine ht.installed hin hsome hfree rfl rfl ⟨_, rfl⟩ hreach fun g' id' => ?_
    simp only [leaks_singleton, hq, hleaves, eq_comm]

end Sound

end Program

end SessionTrail

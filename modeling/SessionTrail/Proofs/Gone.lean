import SessionTrail.Proofs.Reach

/-!
# Sessions that nobody can reach

A session that nobody holds and that stands nowhere as the active one is gone for good: whatever is done
then, nobody gets hold of it again and it becomes active nowhere. So nothing is ever asked of it again.
Nor does a session that has stopped ever run again.
-/
namespace SessionTrail

open Program World

namespace Program

/-- From `s` to `t` every session stays, none can be reached that could not be, and none runs that had
stopped. -/
structure KeepsGone (s t : Program) : Prop where
  stays : ∀ id, (s.session? id).isSome = true → (t.session? id).isSome = true
  gone : ∀ id, (s.session? id).isSome = true → t.isReachable id = true → s.isReachable id = true
  stopped : ∀ id, s.hasStopped id = true → t.hasStopped id = true

theorem hasStopped_iff {s : Program} {id : SessionId} :
    s.hasStopped id = true ↔ ∃ x, s.session? id = some x ∧ x.stopped = true := by
  rw [hasStopped]
  cases s.session? id with
  | none => simp
  | some x => simp

namespace KeepsGone

variable {s t u : Program}

theorem refl (s : Program) : KeepsGone s s := ⟨fun _ h => h, fun _ _ h => h, fun _ h => h⟩

theorem trans (h : KeepsGone s t) (h' : KeepsGone t u) : KeepsGone s u := by
  constructor
  · intro id hx
    exact h'.stays id (h.stays id hx)
  · intro id hx hr
    exact h.gone id hx (h'.gone id (h.stays id hx) hr)
  · intro id hs
    exact h'.stopped id (h.stopped id hs)

theorem of_narrows (n : Narrows s t) : KeepsGone s t := by
  constructor
  · intro id hx
    rw [n.known]
    exact hx
  · intro id _ hr
    exact n.reachable id hr
  · intro id hs
    obtain ⟨x, hx, hxs⟩ := hasStopped_iff.mp hs
    obtain ⟨y, hy⟩ := Option.isSome_iff_exists.mp ((n.known id).trans (by rw [hx]; rfl))
    obtain ⟨x', hx', _, ⟨_, hys⟩ | ⟨_, hys⟩⟩ := n.session id y hy
    · exact hasStopped_iff.mpr ⟨y, hy, hys⟩
    · rw [hx] at hx'
      cases hx'
      exact hasStopped_iff.mpr ⟨y, hy, hys.trans hxs⟩

theorem of_sessions_eq (hs : t.sessions = s.sessions) (ha : t.active = s.active) : KeepsGone s t := by
  have hq : ∀ id, t.session? id = s.session? id := fun id => by
    simp only [session?, hs]
  constructor
  · intro id hx
    rw [hq]
    exact hx
  · intro id _ hr
    simpa only [isReachable, hq, ha] using hr
  · intro id hs
    simpa only [hasStopped, hq] using hs

theorem of_modifySession {id : SessionId} {f : Session → Session}
    (ht : t.outline = (s.modifySession id f).outline) (held : ∀ x, (f x).held = x.held)
    (home : ∀ x, (f x).home = x.home) (stopped : ∀ x, (f x).stopped = x.stopped) : KeepsGone s t := by
  refine trans (t := s.modifySession id f) ?_ (.of_narrows (.of_outline_eq ht))
  constructor
  · intro id' hx
    rw [isSome_session?_modifySession]
    exact hx
  · intro id' _ hr
    rw [isReachable_modifySession s id id' held home] at hr
    exact hr
  · intro id' hs
    obtain ⟨x, hx, hxs⟩ := hasStopped_iff.mp hs
    rw [hasStopped, session?_modifySession]
    split
    · rw [hx, Option.map_some, Option.any_some, stopped]
      exact hxs
    · exact hs

theorem start (s : Program) (id : SessionId) (settings : Settings) (backend : Backend) (home : Home) :
    KeepsGone s (s.start id settings backend home) := by
  obtain he | ⟨hn, x, _, _, _, _, he⟩ := start_cases s id settings backend home <;> rw [he]
  · exact .refl s
  · have hother : ∀ id', (s.session? id').isSome = true → id' ≠ id := by
      intro id' hx hid
      rw [hid, hn] at hx
      cases hx
    constructor
    · intro id' hx
      rw [session?, Table.get?_set_of_ne _ _ (hother id' hx)]
      exact hx
    · intro id' hx hr
      -- The shared place, if it changes, goes to the new session.
      obtain ⟨y, hy, hor⟩ := isReachable_iff.mp hr
      obtain ⟨hid, _⟩ | ⟨_, hy⟩ := set_cases hy
      · exact absurd hid (hother id' hx)
      · refine isReachable_iff.mpr ⟨y, hy, hor.imp_right (Or.imp_left fun ha => ?_)⟩
        simp only at ha
        split at ha
        · exact absurd (Option.some.inj ha).symm (hother id' hx)
        · exact ha
    · intro id' hs
      obtain ⟨y, hy, _⟩ := hasStopped_iff.mp hs
      rw [hasStopped, session?, Table.get?_set_of_ne _ _ (hother id' (by rw [hy]; rfl))]
      exact hs

theorem forgetGone (g : InstallerId) (s : Program) : KeepsGone s (Program.forgetGone g s).2 := by
  obtain ⟨hs, ha, _⟩ := forgetGone_fields g s
  exact .of_sessions_eq hs ha

theorem attach (id : SessionId) (l : Listener) (s : Program) :
    KeepsGone s ((Program.attach id l).run s).2 := by
  obtain ho | ⟨x, _, _, ho⟩ := attach_outline id l s
  · exact .of_narrows (.of_outline_eq ho)
  · exact .of_modifySession ho (fun _ => rfl) (fun _ => rfl) fun _ => rfl

theorem detach (id : SessionId) (l : Listener) (s : Program) :
    KeepsGone s ((Program.detach id l).run s).2 := by
  obtain ho | ⟨x, v, _, _, _, ho⟩ := detach_outline id l s
  · exact .of_narrows (.of_outline_eq ho)
  · exact .of_modifySession ho (fun _ => rfl) (fun _ => rfl) fun _ => rfl

variable {left : InstallerId → SessionId → Nat}

theorem ensureInstalled (h : Sound left s) (g : InstallerId) (id : SessionId) :
    KeepsGone s ((Program.ensureInstalled g id).run s).2 := by
  obtain ⟨hsess, hact, _⟩ := forgetGone_fields g s
  obtain ⟨r, _, hrun, _⟩ | ⟨i, r, u, _, _, hin, heff, hrun⟩ :=
    ensureInstalled_cases g id s (h.listener_lt id) <;> rw [hrun]
  · exact .forgetGone g s
  · constructor
    · intro id' hx
      refine (hin.known id').trans ?_
      change ((Program.forgetGone g s).2.session? id').isSome = true
      rw [session?, hsess]
      exact hx
    · intro id' _ hr
      refine isReachable_of_sessions (hin.fields.2.1.trans hact) (fun y hy => ?_) hr
      obtain ⟨x, hx, hne, heq⟩ := heff id' y hy
      have hf := InstallFrame.of_effect hne heq
      exact ⟨x, hx, hf.held, hf.home⟩
    · intro id' hs
      obtain ⟨x, hx, hxs⟩ := hasStopped_iff.mp hs
      have hx' : (reserved (Program.forgetGone g s).2 g id).session? id' = some x :=
        (congrArg (Table.get? · id') hsess).trans hx
      obtain ⟨y, hy⟩ := Option.isSome_iff_exists.mp ((hin.known id').trans (by rw [hx']; rfl))
      obtain ⟨x', hx'', hne, heq⟩ := heff id' y hy
      rw [hx] at hx''
      cases hx''
      exact hasStopped_iff.mpr ⟨y, hy, (InstallFrame.of_effect hne heq).stopped.trans hxs⟩

end KeepsGone

end Program

namespace World

variable {w : World} {left : InstallerId → SessionId → Nat}

/-- No operation gets hold of a session that nobody can reach. -/
theorem keepsGone_next (h : w.Sound left) (o : Operation) : KeepsGone w.program (o.next w).program := by
  cases o with
  | start id settings backend detached => exact .start _ id settings backend _
  | setBackend id backend => exact .of_modifySession rfl (fun _ => rfl) (fun _ => rfl) fun _ => rfl
  | attach id l =>
    simp only [Operation.next]
    split
    · exact through_preserves (.refl _) (.attach id l _)
    · exact .refl _
  | detach id l =>
    simp only [Operation.next]
    split
    · exact through_preserves (.refl _) (.detach id l _)
    · exact .refl _
  | newInstaller config => exact .of_sessions_eq rfl rfl
  | ensureInstalled g id =>
    exact ensureInstalled_preserves g id (.refl _) (.ensureInstalled h.program g id)
  | forgetGone g =>
    exact forgetGone_preserves g (.refl _) (.forgetGone g _)
  | setUp i =>
    exact setUp_preserves w i (.refl _) (fun _ => .of_sessions_eq rfl rfl)
      (fun config id hk => hk.trans (.ensureInstalled (h.program.newInstaller config) _ id))
      fun _ _ hk => hk.trans (.of_sessions_eq rfl rfl)
  | _ => exact .of_narrows (narrows_next w rfl)

/-- Whatever is done in a run, a session that nobody can reach is gone for good. -/
theorem gone_for_good (h : w.Sound left) (ops : List Operation) {id : SessionId}
    (hx : (w.program.session? id).isSome = true) (hr : w.program.isReachable id = false) :
    (perform ops w).program.isReachable id = false := by
  induction ops generalizing w left with
  | nil => exact hr
  | cons o rest ih =>
    have hk := keepsGone_next h o
    refine ih (h.next o) (hk.stays id hx) ?_
    rw [Bool.eq_false_iff]
    intro hreach
    rw [hk.gone id hx hreach] at hr
    cases hr

end World

end SessionTrail

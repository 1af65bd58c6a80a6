import SessionTrail.Proofs.Reach

/-!
# Runs without crashes

Where no backend crashes, no installation does, and none leaves a listener that its installer has
forgotten.
-/
namespace SessionTrail

open Program World

/-- A program whose backends never crash. -/
def Program.Calm (s : Program) : Prop := ∀ id x, s.session? id = some x → x.backend.Calm

/-- An operation that brings in no backend that may crash. -/
def Operation.Calm : Operation → Prop
  | .start _ _ backend _ => backend.Calm
  | .setBackend _ backend => backend.Calm
  | _ => True

/-- A backend that serves reads, and refuses to write or to detach. -/
def Backend.stuck : Backend :=
  ⟨none, fun _ c => match c with
    | .write .. | .detach => some (.refusal (.unavailable "out of reach"))
    | .read _ | .attach => none⟩

theorem Backend.stuck_calm : Backend.stuck.Calm := by
  intro history c
  cases c <;> nofun

namespace Program.Calm

variable {s t : Program}

theorem of_backends (h : s.Calm)
    (hb : ∀ id y, t.session? id = some y → ∃ x, s.session? id = some x ∧ y.backend = x.backend) :
    t.Calm := by
  intro id y hy
  obtain ⟨x, hx, hxy⟩ := hb id y hy
  rw [hxy]
  exact h id x hx

theorem of_sessions_eq (h : s.Calm) (hs : t.sessions = s.sessions) : t.Calm := by
  intro id x hx
  rw [session?, hs] at hx
  exact h id x hx

theorem of_narrows (h : s.Calm) (n : Narrows s t) : t.Calm :=
  h.of_backends fun id y hy =>
    let ⟨x, hx, hb, _⟩ := n.session id y hy
    ⟨x, hx, hb⟩

theorem of_modifySession (h : s.Calm) {id : SessionId} {f : Session → Session}
    (ht : t.outline = (s.modifySession id f).outline)
    (hf : ∀ x, x.backend.Calm → (f x).backend.Calm) : t.Calm := by
  intro id' y hy
  obtain ⟨z, hz, hzy⟩ := session?_of_map_eq (congrArg Program.sessions ht :) hy
  rw [show y.backend = z.backend from (congrArg Session.backend hzy :).symm]
  obtain ⟨x, hx, ⟨_, rfl⟩ | ⟨_, rfl⟩⟩ := modifySession_cases hz
  · exact hf x (h id' x hx)
  · exact h id' z hx

theorem start (h : s.Calm) (id : SessionId) (settings : Settings) {backend : Backend}
    (hb : backend.Calm) (home : Home) : (s.start id settings backend home).Calm := by
  obtain he | ⟨_, x, _, _, _, hxb, he⟩ := start_cases s id settings backend home
  · rw [he]
    exact h
  · rw [he]
    intro id' y hy
    rcases set_cases hy with ⟨_, rfl⟩ | ⟨_, hy⟩
    · rw [hxb]
      exact hb
    · exact h id' y hy

variable {left : InstallerId → SessionId → Nat}

/-- An activation keeps the backends, and where they are calm it does not crash. -/
theorem ensureInstalled (h : s.Calm) (hs : Program.Sound left s) (g : InstallerId) (id : SessionId) :
    ((Program.ensureInstalled g id).run s).1 ≠ .crashed ∧
      ((Program.ensureInstalled g id).run s).2.Calm := by
  obtain ⟨hsess, _⟩ := forgetGone_fields g s
  obtain ⟨r, hne, hrun, _⟩ | ⟨i, r, u, _, _, hin, heff, hrun⟩ :=
    ensureInstalled_cases g id s (hs.listener_lt id)
  · rw [hrun]
    exact ⟨hne, h.of_sessions_eq hsess⟩
  · rw [hrun]
    have hq : ∀ id', (reserved (Program.forgetGone g s).2 g id).session? id' = s.session? id' :=
      fun id' => congrArg (Table.get? · id') hsess
    constructor
    · cases hin with
      | lostAtFirst _ x here crash =>
        rw [hq] at here
        exact absurd crash (h id x here _ _)
      | lostLater _ x here _ _ crash =>
        rw [hq] at here
        exact absurd (h id x here) crash
      | refused | takenBack | stuck | completed => nofun
    · refine h.of_backends fun id' y hy => ?_
      obtain ⟨x, hx, hne, heq⟩ := heff id' y hy
      exact ⟨x, hx, (InstallFrame.of_effect hne heq).backend⟩

end Program.Calm

/-- The state in which an activation is made is the world's, but for an installer that a set-up makes
for it. -/
theorem activation_before {o : Operation} {w : World} {left : InstallerId → SessionId → Nat}
    {a : Activation} (h : w.program.Sound left) (ha : a ∈ o.activations w) :
    a.before.Sound left ∧ a.before.sessions = w.program.sessions ∧
      ∀ x, a.before.session? a.session = some x → a.before.isReachable a.session = true := by
  cases o with
  | ensureInstalled g id =>
    simp only [Operation.activations] at ha
    split at ha
    · rename_i hr
      rw [List.mem_singleton.mp ha]
      exact ⟨h, rfl, fun _ _ => hr.2⟩
    · cases ha
  | setUp i =>
    rcases hi : w.program.integrations.get? i with _ | ⟨config, _ | g⟩
    · simp only [Operation.activations, hi] at ha
      cases ha
    · rw [activations_setUp hi] at ha
      split at ha
      · rename_i id _ hact
        rw [List.mem_singleton.mp ha]
        exact ⟨h.newInstaller config, rfl, fun x hx => isReachable_iff.mpr ⟨x, hx, .inr (.inl hact)⟩⟩
      · cases ha
    · simp only [Operation.activations, hi] at ha
      cases ha
  | _ => cases ha

namespace World

variable {w : World} {left : InstallerId → SessionId → Nat}

/-- Only activations that crash leave listeners. -/
theorem leaks_of_not_crashed {as : List Activation} (h : ∀ a ∈ as, a.run.1 ≠ .crashed)
    (g : InstallerId) (id : SessionId) : leaks as g id = 0 := by
  rw [leaks, List.countP_eq_zero]
  intro a ha
  simp only [Activation.leaves, h a ha, decide_false, Bool.false_and, Bool.false_eq_true, and_false,
    not_false_eq_true]

theorem leaks_of_calm (h : w.Sound left) (hc : w.program.Calm) (o : Operation) (g : InstallerId)
    (id : SessionId) : leaks (o.activations w) g id = 0 := by
  refine leaks_of_not_crashed (fun a ha => ?_) g id
  obtain ⟨hs, hsess, _⟩ := activation_before h.program ha
  exact ((hc.of_sessions_eq hsess).ensureInstalled hs a.installer a.session).1

theorem calm_next (h : w.Sound left) (hc : w.program.Calm) {o : Operation} (ho : o.Calm) :
    (o.next w).program.Calm := by
  cases o with
  | ensureInstalled g id =>
    exact ensureInstalled_preserves g id hc (hc.ensureInstalled h.program g id).2
  | setUp i =>
    exact setUp_preserves w i hc (fun _ => hc.of_sessions_eq rfl)
      (fun config id hn => (hn.ensureInstalled (h.program.newInstaller config) _ id).2)
      fun _ _ hn => hn.of_sessions_eq rfl
  | start id settings backend detached => exact hc.start id settings ho _
  | setBackend id backend => exact hc.of_modifySession rfl fun _ _ => ho
  | attach id l =>
    simp only [Operation.next]
    split
    · refine through_preserves hc ?_
      rcases attach_outline id l w.program with hout | ⟨_, _, _, hout⟩
      · exact hc.of_narrows (.of_outline_eq hout)
      · exact hc.of_modifySession hout fun _ hb => hb
    · exact hc
  | detach id l =>
    simp only [Operation.next]
    split
    · refine through_preserves hc ?_
      rcases detach_outline id l w.program with hout | ⟨_, _, _, _, _, hout⟩
      · exact hc.of_narrows (.of_outline_eq hout)
      · exact hc.of_modifySession hout fun _ hb => hb
    · exact hc
  | newInstaller config => exact hc.of_sessions_eq rfl
  | forgetGone g =>
    exact forgetGone_preserves g hc (hc.of_sessions_eq (forgetGone_fields g w.program).1)
  | _ => exact hc.of_narrows (narrows_next w rfl)

/-- An operation that meets only calm backends leaves no listener that its installer has forgotten. -/
theorem Sound.next_calm (h : w.Sound fun _ _ => 0) (hc : w.program.Calm) (o : Operation) :
    (o.next w).Sound fun _ _ => 0 := by
  have hn := h.next o
  simp only [leaks_of_calm h hc o, Nat.add_zero] at hn
  exact hn

/-- A run without crashes leaves no listener behind that its installer has forgotten. -/
theorem Sound.perform_calm {ops : List Operation} (h : w.Sound fun _ _ => 0) (hc : w.program.Calm)
    (ho : ∀ o ∈ ops, o.Calm) :
    (World.perform ops w).Sound (fun _ _ => 0) ∧ (World.perform ops w).program.Calm := by
  refine perform_preserves (P := fun v => v.Sound (fun _ _ => 0) ∧ v.program.Calm) ?_ ⟨h, hc⟩
  intro o hm v ⟨hv, hvc⟩
  exact ⟨hv.next_calm hvc o, calm_next hv hvc (ho o hm)⟩

/-- Along a run without crashes no listener is left. -/
theorem leaks_along_of_calm {ops : List Operation} (h : w.Sound fun _ _ => 0) (hc : w.program.Calm)
    (ho : ∀ o ∈ ops, o.Calm) (g : InstallerId) (id : SessionId) :
    leaks (along Operation.activations ops w) g id = 0 := by
  induction ops generalizing w with
  | nil => rfl
  | cons o rest ih =>
    have hr := ih (h.next_calm hc o) (calm_next h hc (ho o List.mem_cons_self))
      fun p hp => ho p (List.mem_cons_of_mem _ hp)
    simp only [along, leaks_append, leaks_of_calm h hc o, hr]

theorem calm_initial (now : Timestamp) (retention : Retention) :
    (initial now retention).program.Calm := fun _ _ hx => nomatch hx

end World

end SessionTrail

import SessionTrail.Proofs.Attachment

/-!
# Runs of worlds

The invariant of programs holds in every world that a run can reach. Listeners that somebody outside
holds are told apart from those that installers make: to detach one never ends a worker of the others.
-/
namespace SessionTrail

open Program World

namespace Program

/-- From `s` to `t` sessions get only listeners that are new or that no installer made. -/
structure Attaches (s t : Program) : Prop where
  listeners_le : s.listeners ≤ t.listeners
  worker : ∀ id y, t.session? id = some y → ∀ v ∈ y.workers,
    (∃ x, s.session? id = some x ∧ v ∈ x.workers) ∨ v.listener.owner = none ∨
      s.listeners ≤ v.listener.id.val

namespace Attaches

variable {s t u : Program}

theorem refl (s : Program) : Attaches s s :=
  ⟨Nat.le_refl _, fun _ y hy _ hv => .inl ⟨y, hy, hv⟩⟩

theorem trans (h : Attaches s t) (h' : Attaches t u) : Attaches s u := by
  refine ⟨Nat.le_trans h.listeners_le h'.listeners_le, fun id z hz v hv => ?_⟩
  rcases h'.worker id z hz v hv with ⟨y, hy, hv⟩ | ho | hlt
  · exact h.worker id y hy v hv
  · exact .inr (.inl ho)
  · exact .inr (.inr (Nat.le_trans h.listeners_le hlt))

theorem of_narrows (n : Narrows s t) : Attaches s t := by
  refine ⟨n.listeners_le, fun id y hy v hv => ?_⟩
  obtain ⟨x, hx, _, ⟨he, _⟩ | ⟨he, _⟩⟩ := n.session id y hy
  · rw [he] at hv
    cases hv
  · rw [he] at hv
    exact .inl ⟨x, hx, hv⟩

theorem of_sessions_eq (hs : t.sessions = s.sessions) (hl : s.listeners ≤ t.listeners) :
    Attaches s t :=
  ⟨hl, fun id y hy v hv => .inl ⟨y, by rw [session?, ← hs]; exact hy, hv⟩⟩

theorem start (s : Program) (id : SessionId) (settings : Settings) (backend : Backend) (home : Home) :
    Attaches s (s.start id settings backend home) := by
  obtain he | ⟨_, x, hw, _, _, _, he⟩ := start_cases s id settings backend home
  · rw [he]
    exact .refl s
  · rw [he]
    refine ⟨Nat.le_refl _, fun id' y hy v hv => ?_⟩
    rcases set_cases hy with ⟨_, rfl⟩ | ⟨_, hy⟩
    · rw [hw] at hv
      cases hv
    · exact .inl ⟨y, hy, hv⟩

theorem forgetGone (g : InstallerId) (s : Program) : Attaches s (Program.forgetGone g s).2 := by
  obtain ⟨hs, _, hl, _⟩ := forgetGone_fields g s
  exact of_sessions_eq hs (Nat.le_of_eq hl.symm)

theorem of_modifySession {id : SessionId} {f : Session → Session}
    (ht : t.outline = (s.modifySession id f).outline)
    (hf : ∀ x, ∀ v ∈ (f x).workers, v ∈ x.workers ∨ v.listener.owner = none) : Attaches s t := by
  refine ⟨Nat.le_of_eq (congrArg Program.listeners ht :).symm, fun id' y hy v hv => ?_⟩
  obtain ⟨z, hz, hzy⟩ := session?_of_map_eq (congrArg Program.sessions ht :) hy
  rw [show y.workers = z.workers from (congrArg Session.workers hzy :).symm] at hv
  obtain ⟨x, hx, ⟨_, rfl⟩ | ⟨_, rfl⟩⟩ := modifySession_cases hz
  · exact (hf x v hv).imp (fun h => ⟨x, hx, h⟩) .inl
  · exact .inl ⟨z, hx, hv⟩

end Attaches

/-! ## Listeners that somebody outside holds -/

/-- What an attachment leaves: nothing new, or the listener at a running session. -/
theorem attach_outline (id : SessionId) (l : Listener) (s : Program) :
    ((attach id l).run s).2.outline = s.outline ∨
      ∃ x, s.session? id = some x ∧ x.stopped = false ∧
        ((attach id l).run s).2.outline = (s.modifySession id (·.addWorker l)).outline := by
  obtain ⟨x, t, hx, hs, _, hr, ht⟩ | ⟨e, t, hr, ht⟩ | ⟨x, t, _, _, hr, ht⟩ := attach_ends id l s
  · rw [hr]
    exact .inr ⟨x, hx, hs, outline_eq_of_core_eq ht⟩
  · rw [hr]
    exact .inl (outline_eq_of_core_eq ht)
  · rw [hr]
    exact .inl (outline_eq_of_core_eq ht)

/-- What a detachment leaves: nothing new, or a session without the first worker of the listener. -/
theorem detach_outline (id : SessionId) (l : Listener) (s : Program) :
    ((detach id l).run s).2.outline = s.outline ∨
      ∃ x v, s.session? id = some x ∧ v ∈ x.workers ∧ v.listener.id = l.id ∧
        ((detach id l).run s).2.outline = (s.modifySession id (·.endWorker v)).outline := by
  have hk := onSession_keeps_core id (Session.consult_keeps_core .detach) s
  rw [run_detach]
  rcases hr : (onSession id (Session.consult .detach)).run s with ⟨_ | e | _, t⟩ <;> rw [hr] at hk
  · have ho : t.outline = s.outline := outline_eq_of_core_eq hk
    cases hv : (t.session? id).bind (·.workerOf? l.id) with
    | none =>
      left
      simp only [endWorkerOf, hv]
      exact ho
    | some v =>
      right
      obtain ⟨y, hy, hyv⟩ := Option.bind_eq_some_iff.mp hv
      obtain ⟨x, hx, hxy⟩ := session?_of_map_eq (congrArg Program.sessions ho :) hy
      have hw : x.workers = y.workers := (congrArg Session.workers hxy :)
      have hm : v ∈ x.workers := by
        rw [hw]
        exact List.mem_of_find?_eq_some hyv
      refine ⟨x, v, hx, hm, by simpa using List.find?_some hyv, ?_⟩
      simp only [endWorkerOf, hv]
      exact outline_modifySession_congr ((flush_outline id [v] t).trans ho) id fun _ => rfl
  · exact .inl (outline_eq_of_core_eq hk)
  · exact .inl (outline_eq_of_core_eq hk)

/-- A listener that no installer made, of which the program has no copy that an installer made. -/
structure Foreign (s : Program) (l : Listener) : Prop where
  made : l.id.val < s.listeners
  owner : l.owner = none
  alone : ∀ id x, s.session? id = some x → ∀ v ∈ x.workers, v.listener.id = l.id →
    v.listener.owner = none

theorem Foreign.of_attaches {s t : Program} {l : Listener} (h : Foreign s l) (a : Attaches s t) :
    Foreign t l := by
  refine ⟨Nat.lt_of_lt_of_le h.made a.listeners_le, h.owner, fun id y hy v hv hid => ?_⟩
  rcases a.worker id y hy v hv with ⟨x, hx, hvx⟩ | ho | hlt
  · exact h.alone id x hx v hvx hid
  · exact ho
  · rw [hid] at hlt
    exact absurd h.made (Nat.not_lt_of_le hlt)

theorem attaches_attach {l : Listener} (hl : l.owner = none) (id : SessionId) (s : Program) :
    Attaches s ((attach id l).run s).2 := by
  rcases attach_outline id l s with ho | ⟨x, _, _, ho⟩
  · exact .of_narrows (.of_outline_eq ho)
  · refine .of_modifySession ho fun y v hv => ?_
    rw [Session.addWorker_workers] at hv
    rcases List.mem_append.mp hv with h | h
    · exact .inl h
    · rw [List.mem_singleton.mp h]
      exact .inr hl

theorem attaches_detach (id : SessionId) (l : Listener) (s : Program) :
    Attaches s ((detach id l).run s).2 := by
  rcases detach_outline id l s with ho | ⟨x, v, _, _, _, ho⟩
  · exact .of_narrows (.of_outline_eq ho)
  · exact .of_modifySession ho fun y v hv => .inl (List.mem_of_mem_erase hv)

variable {left : InstallerId → SessionId → Nat} {s : Program} {l : Listener}

theorem Sound.attach (h : Sound left s) (hl : Foreign s l) (id : SessionId) :
    Sound left ((Program.attach id l).run s).2 := by
  rcases attach_outline id l s with ho | ⟨x, hx, hs, ho⟩
  · exact h.narrow (.of_outline_eq ho)
  · suffices hm : Sound left (s.modifySession id (·.addWorker l)) from
      hm.narrow (.of_outline_eq ho)
    refine h.modifySession (fun _ => ⟨rfl, rfl, rfl⟩) (fun y hy v hv => ?_) (fun y hy hys => ?_)
      fun y g hy => ?_
    · rw [Session.addWorker_workers] at hv
      rcases List.mem_append.mp hv with hv | hv
      · exact .inl hv
      · rw [List.mem_singleton.mp hv]
        exact .inr ⟨hl.made, hl.owner⟩
    · rw [hx] at hy
      cases hy
      rw [hs] at hys
      cases hys
    · rw [Session.attachedBy_append (y.addWorker_workers l)]
      simp [Session.nextWorker, hl.owner]

theorem Sound.detach (h : Sound left s) (hl : Foreign s l) (id : SessionId) :
    Sound left ((Program.detach id l).run s).2 := by
  rcases detach_outline id l s with ho | ⟨x, v, hx, hv, hid, ho⟩
  · exact h.narrow (.of_outline_eq ho)
  · suffices hm : Sound left (s.modifySession id (·.endWorker v)) from
      hm.narrow (.of_outline_eq ho)
    refine h.modifySession (fun _ => ⟨rfl, rfl, rfl⟩) (fun y hy v hv => ?_) (fun y hy _ hw => ?_)
      fun y g hy => ?_
    · exact .inl (List.mem_of_mem_erase hv)
    · simp only [Session.endWorker, hw, List.erase_nil]
    · exact Session.attachedBy_erase rfl (hl.alone id x hx v hv hid) g

/-! ## Activations and set-ups -/

theorem attaches_ensureInstalled (h : Sound left s) (g : InstallerId) (id : SessionId) :
    Attaches s ((ensureInstalled g id).run s).2 := by
  obtain ⟨r, _, hrun, _⟩ | ⟨i, r, u, _, _, hin, heff, hrun⟩ :=
    ensureInstalled_cases g id s (h.listener_lt id)
  · rw [hrun]
    exact .forgetGone g s
  · rw [hrun]
    obtain ⟨_, _, hl, _⟩ := forgetGone_fields g s
    refine ⟨?_, fun id' y hy v hv => ?_⟩
    · have hle : (setStanding g id (standingAfter r) u).listeners =
          (Program.forgetGone g s).2.listeners + 1 := hin.fields.2.2.1
      simp only [hle, hl]
      exact Nat.le_succ _
    · obtain ⟨x, hx, hne, heq⟩ := heff id' y hy
      rcases (InstallFrame.of_effect hne heq).worker v hv with hv | ⟨_, rfl, _⟩
      · exact .inl ⟨x, hx, hv⟩
      · exact .inr (.inr (Nat.le_of_eq hl.symm))

/-- The ways in which a set-up of an integration that has no installer ends. It makes one. If that is
on and a session is active, it is to install there: should it fail to, the integration keeps none. -/
theorem setUp_ends {i : IntegrationId} {s : Program} {config : Config}
    (hi : s.integrations.get? i = some ⟨config, none⟩) :
    (∃ id r, (s.newInstaller config).2.isOn (s.newInstaller config).1 = true ∧ s.active = some id ∧
      (∀ reply, ((ensureInstalled (s.newInstaller config).1 id).run (s.newInstaller config).2).1 ≠
        .done reply) ∧ (∀ g, r ≠ .done g) ∧ (Program.setUp i).run s =
          (r, ((ensureInstalled (s.newInstaller config).1 id).run (s.newInstaller config).2).2)) ∨
    (∃ id reply, (s.newInstaller config).2.isOn (s.newInstaller config).1 = true ∧
      s.active = some id ∧
      ((ensureInstalled (s.newInstaller config).1 id).run (s.newInstaller config).2).1 = .done reply ∧
      (Program.setUp i).run s = (.done (s.newInstaller config).1,
        keepInstaller i (s.newInstaller config).1
          ((ensureInstalled (s.newInstaller config).1 id).run (s.newInstaller config).2).2)) ∨
    (∀ id, (s.newInstaller config).2.isOn (s.newInstaller config).1 = true → s.active ≠ some id) ∧
      (Program.setUp i).run s = (.done (s.newInstaller config).1,
        keepInstaller i (s.newInstaller config).1 (s.newInstaller config).2) := by
  have hr : (Program.setUp i).run s = Program.setUp i s := rfl
  rw [hr]
  simp only [Program.setUp, hi, Option.map_some, Option.getD_some]
  split
  · rename_i id ho ha
    rcases he : (ensureInstalled (s.newInstaller config).1 id).run (s.newInstaller config).2
      with ⟨reply | e | _, t⟩
    · exact .inr (.inl ⟨id, reply, ho, ha, by rw [he], by rw [he]⟩)
    · exact .inl ⟨id, .failed e, ho, ha, by simp [he], by simp, by rw [he]⟩
    · exact .inl ⟨id, .crashed, ho, ha, by simp [he], by simp, by rw [he]⟩
  · rename_i hno
    exact .inr (.inr ⟨fun id ho ha => hno id ho ha, rfl⟩)

/-- What a set-up does to all but the integrations. -/
theorem setUp_cases {i : IntegrationId} {s : Program} {config : Config}
    (hi : s.integrations.get? i = some ⟨config, none⟩) :
    (∃ id integrations, (s.newInstaller config).2.isOn (s.newInstaller config).1 = true ∧
      s.active = some id ∧ ((Program.setUp i).run s).2 =
        { ((ensureInstalled (s.newInstaller config).1 id).run (s.newInstaller config).2).2 with
          integrations }) ∨
    (∃ integrations,
      (∀ id, (s.newInstaller config).2.isOn (s.newInstaller config).1 = true → s.active ≠ some id) ∧
        ((Program.setUp i).run s).2 = { (s.newInstaller config).2 with integrations }) := by
  obtain ⟨id, r, ho, ha, _, _, hr⟩ | ⟨id, reply, ho, ha, _, hr⟩ | ⟨hno, hr⟩ := setUp_ends hi <;> rw [hr]
  · exact .inl ⟨id, _, ho, ha, rfl⟩
  · exact .inl ⟨id, _, ho, ha, rfl⟩
  · exact .inr ⟨_, hno, rfl⟩

theorem setUp_of_kept {i : IntegrationId} {s : Program} {config : Config} {g : InstallerId}
    (hi : s.integrations.get? i = some ⟨config, some g⟩) :
    (Program.setUp i).run s = (.done g, s) := by
  change Program.setUp i s = _
  simp only [Program.setUp, hi]

end Program

/-! ## Worlds -/

namespace World

/-- The invariant of worlds. -/
structure Sound (left : InstallerId → SessionId → Nat) (w : World) : Prop where
  program : w.program.Sound left
  foreign : ∀ l ∈ w.listeners, w.program.Foreign l

theorem sound_initial (now : Timestamp) (retention : Retention) :
    (initial now retention).Sound fun _ _ => 0 := by
  refine ⟨⟨fun g => ?_, fun g i hi => ?_, fun id x hx => ?_, fun id x hx => ?_, fun id x hx => ?_,
    fun g id => ?_, fun g id _ => ⟨rfl, rfl⟩, fun g id x hx => ?_⟩, fun l hl => ?_⟩
  · exact ⟨fun h => (nomatch h), fun h => absurd h (Nat.not_lt_zero _)⟩
  · cases hi
  · cases hx
  · cases hx
  · cases hx
  · nofun
  · cases hx
  · cases hl

theorem Sound.of_attaches {left left' : InstallerId → SessionId → Nat} {w : World} {t : Program}
    {installers : List InstallerId} (h : w.Sound left) (ht : t.Sound left')
    (a : Attaches w.program t) : World.Sound left' ⟨t, installers, w.listeners⟩ :=
  ⟨ht, fun l hl => (h.foreign l hl).of_attaches a⟩

theorem Sound.through {left : InstallerId → SessionId → Nat} {w : World} {id : SessionId}
    {f : Program → Program} (h : w.Sound left) (hf : (f w.program).Sound left)
    (a : Attaches w.program (f w.program)) : (w.through id f).Sound left := by
  unfold World.through
  split
  · exact h.of_attaches hf a
  · exact h

theorem setUp_next (w : World) (i : IntegrationId) :
    ∃ installers, (Operation.setUp i).next w =
      ⟨if w.program.integrations.contains i then ((Program.setUp i).run w.program).2 else w.program,
        installers, w.listeners⟩ := by
  simp only [Operation.next]
  split
  · rcases (Program.setUp i).run w.program with ⟨_ | _ | _, t⟩ <;> exact ⟨_, rfl⟩
  · exact ⟨_, rfl⟩

/-- An operation changes the listeners that somebody outside holds only if it makes one. -/
theorem listeners_next {o : Operation} (w : World) (hn : ∀ b, o ≠ .newListener b) :
    (o.next w).listeners = w.listeners := by
  cases o with
  | newListener b => exact absurd rfl (hn b)
  | setUp i =>
    obtain ⟨_, h⟩ := setUp_next w i
    rw [h]
  | stop | read | write | post | makeActive => exact listeners_through w _ _
  | attach | detach | ensureInstalled =>
    simp only [Operation.next]
    split
    · exact listeners_through w _ _
    · rfl
  | turn | forgetGone =>
    simp only [Operation.next]
    split <;> rfl
  | _ => rfl

variable {left : InstallerId → SessionId → Nat} {w : World}

theorem Sound.plain (h : w.Sound left) {o : Operation} (ho : o.isPlain = true) :
    (o.next w).Sound left := by
  have n := narrows_next w ho
  refine ⟨h.program.narrow n, fun l hl => ?_⟩
  by_cases hn : ∃ b, o = .newListener b
  · obtain ⟨b, rfl⟩ := hn
    rcases List.mem_cons.mp hl with rfl | hl
    · refine ⟨Nat.lt_succ_self _, rfl, fun id x hx v hv hid => ?_⟩
      have hlt := h.program.listener_lt id x hx v hv
      rw [hid] at hlt
      exact absurd hlt (Nat.lt_irrefl _)
    · exact (h.foreign l hl).of_attaches (.of_narrows n)
  · rw [listeners_next w fun b hb => hn ⟨b, hb⟩] at hl
    exact (h.foreign l hl).of_attaches (.of_narrows n)

/-- An activation changes the world as `Operation.activations` counts it. -/
theorem Sound.ensureInstalled (h : w.Sound left) (g : InstallerId) (id : SessionId) :
    ((Operation.ensureInstalled g id).next w).Sound fun g' id' =>
      left g' id' + leaks ((Operation.ensureInstalled g id).activations w) g' id' := by
  simp only [Operation.next, Operation.activations, World.through]
  by_cases hg : g ∈ w.installers
  · by_cases hr : w.program.isReachable id = true
    · simp only [hg, hr, if_true, and_self]
      exact h.of_attaches (h.program.ensureInstalled g id fun _ _ => hr)
        (attaches_ensureInstalled h.program g id)
    · simp only [hg, hr, if_true]
      exact h
  · simp only [hg, if_false, false_and]
    exact h

/-- What holds of the program, of one with a new installer and of what an installation by that leaves,
holds behind a set-up. -/
theorem setUp_preserves {P : Program → Prop} (w : World) (i : IntegrationId) (same : P w.program)
    (made : ∀ config, P (w.program.newInstaller config).2)
    (installed : ∀ config id, P (w.program.newInstaller config).2 →
      P ((Program.ensureInstalled (w.program.newInstaller config).1 id).run
        (w.program.newInstaller config).2).2)
    (kept : ∀ t integrations, P t → P { t with integrations }) :
    P ((Operation.setUp i).next w).program := by
  obtain ⟨installers, hn⟩ := setUp_next w i
  rw [hn]
  rcases hi : w.program.integrations.get? i with _ | ⟨config, _ | g⟩
  · simp only [Table.contains, hi, Option.isSome_none, Bool.false_eq_true, if_false]
    exact same
  · simp only [Table.contains, hi, Option.isSome_some, if_true]
    obtain ⟨id, integrations, _, _, hp⟩ | ⟨integrations, _, hp⟩ := setUp_cases hi <;> rw [hp]
    · exact kept _ integrations (installed config id (made config))
    · exact kept _ integrations (made config)
  · simp only [Table.contains, hi, Option.isSome_some, if_true, setUp_of_kept hi]
    exact same

theorem activations_setUp {i : IntegrationId} {config : Config}
    (hi : w.program.integrations.get? i = some ⟨config, none⟩) :
    (Operation.setUp i).activations w =
      match (w.program.newInstaller config).2.isOn (w.program.newInstaller config).1,
        w.program.active with
      | true, some id => [⟨(w.program.newInstaller config).1, id, (w.program.newInstaller config).2⟩]
      | _, _ => [] := by
  simp only [Operation.activations, hi]
  rfl

theorem Sound.setUp (h : w.Sound left) (i : IntegrationId) :
    ((Operation.setUp i).next w).Sound fun g' id' =>
      left g' id' + leaks ((Operation.setUp i).activations w) g' id' := by
  obtain ⟨installers, hn⟩ := setUp_next w i
  rw [hn]
  rcases hi : w.program.integrations.get? i with _ | ⟨config, _ | g⟩
  · simp only [Operation.activations, hi, Table.contains, Option.isSome_none, Bool.false_eq_true,
      if_false]
    exact h.of_attaches h.program (.refl _)
  · rw [activations_setUp hi]
    simp only [Table.contains, hi, Option.isSome_some, if_true]
    have hs := h.program.newInstaller config
    have ha : Attaches w.program (w.program.newInstaller config).2 :=
      .of_sessions_eq rfl (Nat.le_refl _)
    obtain ⟨id, integrations, hon, hact, hp⟩ | ⟨integrations, hoff, hp⟩ := setUp_cases hi
    · have hr : ∀ x, (w.program.newInstaller config).2.session? id = some x →
          (w.program.newInstaller config).2.isReachable id = true := fun x hx =>
        isReachable_iff.mpr ⟨x, hx, .inr (.inl hact)⟩
      have he := hs.ensureInstalled (w.program.newInstaller config).1 id hr
      have hea := attaches_ensureInstalled hs (w.program.newInstaller config).1 id
      rw [hp, hon, hact]
      exact h.of_attaches (he.narrow (.of_sessions_eq rfl rfl rfl (Nat.le_refl _)))
        ((ha.trans hea).trans (.of_sessions_eq rfl (Nat.le_refl _)))
    · rw [hp]
      split
      · rename_i id hon hact
        exact absurd hact (hoff id hon)
      · exact h.of_attaches (hs.narrow (.of_sessions_eq rfl rfl rfl (Nat.le_refl _)))
          (ha.trans (.of_sessions_eq rfl (Nat.le_refl _)))
  · simp only [Operation.activations, Table.contains, hi, Option.isSome_some, if_true,
      setUp_of_kept hi]
    exact h.of_attaches h.program (.refl _)

/-- An operation keeps the invariant, if the listeners that its activations may leave are counted. -/
theorem Sound.next (h : w.Sound left) (o : Operation) :
    (o.next w).Sound fun g' id' => left g' id' + leaks (o.activations w) g' id' := by
  cases o with
  | ensureInstalled g id => exact h.ensureInstalled g id
  | setUp i => exact h.setUp i
  | start id settings backend detached =>
    exact h.of_attaches (h.program.start id settings backend _) (.start _ id settings backend _)
  | setBackend id backend =>
    refine h.of_attaches (h.program.modifySession (fun _ => ⟨rfl, rfl, rfl⟩) (fun _ _ v hv => .inl hv)
      (fun _ _ _ hw => hw) fun _ _ _ => rfl) (.of_modifySession rfl fun x v hv => .inl hv)
  | attach id l =>
    simp only [Operation.next]
    split
    · rename_i hl
      exact h.through (h.program.attach (h.foreign l hl) id) (attaches_attach (h.foreign l hl).owner id _)
    · exact h
  | detach id l =>
    simp only [Operation.next]
    split
    · rename_i hl
      exact h.through (h.program.detach (h.foreign l hl) id) (attaches_detach id l _)
    · exact h
  | newInstaller config =>
    exact h.of_attaches (h.program.newInstaller config) (.of_sessions_eq rfl (Nat.le_refl _))
  | forgetGone g =>
    simp only [Operation.next]
    split
    · exact h.of_attaches (h.program.forgetGone g) (.forgetGone g _)
    · exact h
  | _ => exact h.plain rfl

/-- Whatever a run does, the world that it reaches has balanced listeners. -/
theorem Sound.perform (h : w.Sound left) (ops : List Operation) :
    (World.perform ops w).Sound fun g id =>
      left g id + leaks (along Operation.activations ops w) g id := by
  induction ops generalizing w left with
  | nil => exact h
  | cons o rest ih =>
    have hr := ih (h.next o)
    simp only [along, leaks_append, ← Nat.add_assoc]
    exact hr

theorem sound_runAll (now : Timestamp) (retention : Retention) (cs : List Command) :
    ∃ left, (Command.runAll cs (initial now retention)).Sound left := by
  rw [Command.runAll_eq_perform]
  exact ⟨_, (sound_initial now retention).perform _⟩

end World

end SessionTrail

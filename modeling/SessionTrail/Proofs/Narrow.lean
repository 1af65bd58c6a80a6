import SessionTrail.Proofs.Attempt
import SessionTrail.Proofs.World

/-!
# Steps that add no listener

Most operations leave the listeners of all sessions where they are, or end those of a session that they
stop, and none of them makes a session reachable that was not so.
-/
namespace SessionTrail.Program

/-- From `s` to `t` no session is gained or lost, none gets a listener or another backend, none starts
again or becomes reachable again, and the installers stand with the sessions as before. -/
structure Narrows (s t : Program) : Prop where
  installers_eq : t.installers = s.installers
  listeners_le : s.listeners ≤ t.listeners
  known : ∀ id, (t.session? id).isSome = (s.session? id).isSome
  reachable : ∀ id, t.isReachable id = true → s.isReachable id = true
  session : ∀ id y, t.session? id = some y → ∃ x, s.session? id = some x ∧ y.backend = x.backend ∧
    (y.workers = [] ∧ y.stopped = true ∨ y.workers = x.workers ∧ y.stopped = x.stopped)

namespace Narrows

theorem refl (s : Program) : Narrows s s :=
  ⟨rfl, Nat.le_refl _, fun _ => rfl, fun _ h => h, fun _ y hy => ⟨y, hy, rfl, .inr ⟨rfl, rfl⟩⟩⟩

theorem trans {s t u : Program} (h : Narrows s t) (h' : Narrows t u) : Narrows s u := by
  refine ⟨h'.installers_eq.trans h.installers_eq, Nat.le_trans h.listeners_le h'.listeners_le,
    fun id => (h'.known id).trans (h.known id), fun id hr => h.reachable id (h'.reachable id hr), ?_⟩
  intro id z hz
  obtain ⟨y, hy, hyb, hyz⟩ := h'.session id z hz
  obtain ⟨x, hx, hxb, hxy⟩ := h.session id y hy
  refine ⟨x, hx, hyb.trans hxb, ?_⟩
  rcases hyz with hyz | ⟨hw, hs⟩
  · exact .inl hyz
  · rw [hw, hs]
    exact hxy

theorem of_map_eq {s t : Program}
    (hs : t.sessions.map Session.outline = s.sessions.map Session.outline)
    (ha : t.active = s.active) (hi : t.installers = s.installers) (hl : s.listeners ≤ t.listeners) :
    Narrows s t := by
  refine ⟨hi, hl, isSome_session?_of_map_eq hs, fun id hr => ?_, fun id y hy => ?_⟩
  · rw [isReachable_of_map_eq hs ha] at hr
    exact hr
  · obtain ⟨x, hx, hxy⟩ := session?_of_map_eq hs hy
    exact ⟨x, hx, (congrArg Session.backend hxy :).symm,
      .inr ⟨(congrArg Session.workers hxy :).symm, (congrArg Session.stopped hxy :).symm⟩⟩

theorem of_outline_eq {s t : Program} (h : t.outline = s.outline) : Narrows s t :=
  of_map_eq (congrArg Program.sessions h :) (congrArg Program.active h :)
    (congrArg Program.installers h :) (Nat.le_of_eq (congrArg Program.listeners h :).symm)

theorem of_core_eq {s t : Program} (h : t.core = s.core) : Narrows s t :=
  of_outline_eq (outline_eq_of_core_eq h)

/-- What a submission does, it does to the reporter and to the effects of calls. -/
theorem of_thins {s t : Program} (h : Thins s t) : Narrows s t := by
  have hs : t.sessions.map Session.core = s.sessions.map Session.core :=
    (congrArg Program.sessions h.body_eq :)
  refine of_map_eq ?_ (congrArg Program.active h.body_eq :) (congrArg Program.installers h.body_eq :)
    (Nat.le_of_eq (congrArg Program.listeners h.body_eq :).symm)
  have ho := congrArg (Table.map Session.outline) hs
  simpa only [Table.map, List.map_map, Function.comp_def, Session.outline_core] using ho

theorem of_sessions_eq {s t : Program} (hs : t.sessions = s.sessions) (ha : t.active = s.active)
    (hi : t.installers = s.installers) (hl : s.listeners ≤ t.listeners) : Narrows s t :=
  of_map_eq (by rw [hs]) ha hi hl

theorem of_modifySession {s : Program} {id : SessionId} {f : Session → Session}
    (hh : ∀ x, (f x).held = true → x.held = true)
    (hm : ∀ x, (f x).home = .own true → x.home = .own true)
    (hb : ∀ x, (f x).backend = x.backend)
    (hw : ∀ x, s.session? id = some x → (f x).workers = [] ∧ (f x).stopped = true ∨
      (f x).workers = x.workers ∧ (f x).stopped = x.stopped) :
    Narrows s (s.modifySession id f) := by
  constructor
  · exact rfl
  · exact Nat.le_refl _
  · intro id'
    rw [session?_modifySession]
    split <;> simp only [Option.isSome_map]
  · intro id' hr
    obtain ⟨y, hy, hor⟩ := isReachable_iff.mp hr
    obtain ⟨x, hx, ⟨_, rfl⟩ | ⟨_, rfl⟩⟩ := modifySession_cases hy
    · exact isReachable_iff.mpr ⟨x, hx, hor.imp (hh x) (Or.imp_right (hm x))⟩
    · exact isReachable_iff.mpr ⟨y, hx, hor⟩
  · intro id' y hy
    obtain ⟨x, hx, ⟨rfl, rfl⟩ | ⟨_, rfl⟩⟩ := modifySession_cases hy
    · exact ⟨x, hx, hb x, hw x hx⟩
    · exact ⟨y, hx, rfl, .inr ⟨rfl, rfl⟩⟩

/-! ## The steps -/

theorem release (s : Program) (id : SessionId) : Narrows s (s.release id).2 :=
  of_modifySession (fun _ h => nomatch h) (fun _ h => h) (fun _ => rfl) fun _ _ => .inr ⟨rfl, rfl⟩

theorem clearActive (s : Program) (id : SessionId) : Narrows s (s.clearActive id).2 := by
  unfold Program.clearActive
  split
  · refine ⟨rfl, Nat.le_refl _, fun _ => rfl, fun id' hr => ?_, fun _ y hy => ⟨y, hy, rfl, .inr ⟨rfl, rfl⟩⟩⟩
    obtain ⟨x, hx, hor⟩ := isReachable_iff.mp hr
    refine isReachable_iff.mpr ⟨x, hx, hor.imp_right fun h => ?_⟩
    exact h.elim (fun ha => nomatch ha) .inr
  · exact .refl s

/-- A session that becomes the active one was reachable before. -/
theorem makeActive {s : Program} {id : SessionId} (h : s.isReachable id = true) :
    Narrows s (s.makeActive id).2 := by
  refine ⟨rfl, Nat.le_refl _, fun _ => rfl, fun id' hr => ?_, fun _ y hy => ⟨y, hy, rfl, .inr ⟨rfl, rfl⟩⟩⟩
  obtain ⟨x, hx, hh | ha | hm⟩ := isReachable_iff.mp hr
  · exact isReachable_iff.mpr ⟨x, hx, .inl hh⟩
  · rw [← Option.some.inj ha]
    exact h
  · exact isReachable_iff.mpr ⟨x, hx, .inr (.inr hm)⟩

end Narrows

/-- A session whose workers have all been ended, one after another. -/
theorem exists_foldl_endWorker (workers : List Worker) (x : Session) (h : x.workers = workers) :
    ∃ queues, workers.foldl Session.endWorker x =
      { x with workers := [], bus := { x.bus with queues } } := by
  induction workers generalizing x with
  | nil =>
    refine ⟨x.bus.queues, ?_⟩
    rw [List.foldl_nil, ← h]
  | cons w rest ih =>
    have hr : (x.endWorker w).workers = rest := by
      simp only [Session.endWorker, h, List.erase_cons_head]
    obtain ⟨queues, hb⟩ := ih (x.endWorker w) hr
    exact ⟨queues, hb⟩

theorem Narrows.markStopped {s : Program} {id : SessionId} {x : Session} {bus : Bus Event}
    (hx : s.session? id = some x) :
    Narrows s (Program.markStopped id (s.modifySession id fun x => { x with workers := [], bus })) := by
  have hv : (s.modifySession id fun x => { x with workers := [], bus }).session? id =
      some { x with workers := [], bus } := by
    rw [session?_modifySession, if_pos rfl, hx, Option.map_some]
  unfold Program.markStopped
  simp only [hv]
  split
  · rename_i h
    refine .of_modifySession (fun _ h => h) (fun _ h => h) (fun _ => rfl) fun y hy => .inl ⟨rfl, ?_⟩
    rw [hx] at hy
    cases hy
    exact h
  · rw [modifySession_modifySession]
    have hn : Narrows s (s.modifySession id fun y =>
        { y with workers := [], stopped := true, bus := bus.close }) :=
      .of_modifySession (fun _ h => h) (fun _ h => h) (fun _ => rfl) fun _ _ => .inl ⟨rfl, rfl⟩
    split
    · exact hn.trans (.clearActive _ id)
    · exact hn.trans (.of_modifySession (fun _ h => h) (fun _ h => nomatch h) (fun _ => rfl)
        fun _ _ => .inr ⟨rfl, rfl⟩)

theorem Narrows.stop (id : SessionId) (s : Program) : Narrows s (Program.stop id s).2 := by
  have hset : Narrows s (settle id s).2 := .of_outline_eq (settle_outline id s)
  have he : (Program.stop id s).2 = Program.markStopped id ((settle id s).2.modifySession id
      fun session => session.workers.foldl Session.endWorker session) := rfl
  rw [he]
  cases hx : (settle id s).2.session? id with
  | none =>
    rw [modifySession_of_none hx]
    simp only [Program.markStopped, hx]
    exact hset
  | some x =>
    obtain ⟨queues, hb⟩ := exists_foldl_endWorker x.workers x rfl
    have hm : (settle id s).2.modifySession id
        (fun session => session.workers.foldl Session.endWorker session) =
          (settle id s).2.modifySession id fun session =>
            { session with workers := [], bus := { x.bus with queues } } :=
      modifySession_congr hx hb
    rw [hm]
    exact hset.trans (.markStopped hx)

end SessionTrail.Program

namespace SessionTrail

open Program World

/-- Whether an operation leaves the listeners where they are or ends those of a session, and makes no
session, backend or installer. -/
def Operation.isPlain : Operation → Bool
  | .start .. | .setBackend .. | .attach .. | .detach .. | .newInstaller _ | .ensureInstalled ..
  | .forgetGone _ | .setUp _ => false
  | _ => true

theorem narrows_through {w : World} {id : SessionId} {f : Program → Program}
    (h : w.program.isReachable id = true → Narrows w.program (f w.program)) :
    Narrows w.program (w.through id f).program := by
  unfold through
  split
  · rename_i hr
    exact h hr
  · exact .refl _

/-- Such an operation only narrows what is there. -/
theorem narrows_next {o : Operation} (w : World) (h : o.isPlain = true) :
    Narrows w.program (o.next w).program := by
  cases o with
  | tick now => exact .of_sessions_eq rfl rfl rfl (Nat.le_refl _)
  | stop id => exact narrows_through fun _ => .stop id _
  | release id => exact .release _ id
  | read id a =>
    exact narrows_through fun _ => .of_core_eq (onSession_keeps_core id (Session.read_keeps_core a) _)
  | write id key value =>
    exact narrows_through fun _ =>
      .of_core_eq (onSession_keeps_core id (Session.write_keeps_core key value) _)
  | post id e =>
    exact narrows_through fun _ =>
      .of_outline_eq (onSession_keeps_outline id (Session.post_keeps_outline e) _)
  | turn id number =>
    simp only [Operation.next]
    split
    · exact .of_outline_eq (turn_outline id _ _)
    · exact .refl _
  | makeActive id => exact narrows_through fun hr => .makeActive hr
  | clearActive id => exact .clearActive _ id
  | newListener behaviour => exact .of_sessions_eq rfl rfl rfl (Nat.le_succ _)
  | enable integration => exact .of_sessions_eq rfl rfl rfl (Nat.le_refl _)
  | disable integration => exact .of_sessions_eq rfl rfl rfl (Nat.le_refl _)
  | leave crumb => exact .of_sessions_eq rfl rfl rfl (Nat.le_refl _)
  | clearCrumbs => exact .of_sessions_eq rfl rfl rfl (Nat.le_refl _)
  | register rule => exact .of_sessions_eq rfl rfl rfl (Nat.le_refl _)
  | unregister id => exact .of_sessions_eq rfl rfl rfl (Nat.le_refl _)
  | submit report hint => exact .of_thins (submit_thins report hint _)
  | newIntegration config => exact .of_sessions_eq rfl rfl rfl (Nat.le_refl _)
  | start | setBackend | attach | detach | newInstaller | ensureInstalled | forgetGone | setUp => cases h

end SessionTrail

import Mathlib.Logic.Relation
import SessionTrail.Proofs.Standing

/-!
# Racing activations

Any number of callers may ask one installer for one session at the same time. A caller goes on in steps:
what is done under the lock of the installer is one step, and every call of the session or of the
reporter is one. Between two steps of a caller the others take any number of theirs. A caller that finds
somebody at the session waits; its next step asks again.

A caller whom nobody disturbs does what the activation of the program does.
-/
namespace SessionTrail

open Program

/-! ## Callers -/

/-- Which of the calls for the identity properties is the next one. What has been read is carried along to
the write. -/
inductive Stamp where
  | readName
  | writeName (name : String)
  | readIdentity
  | writeIdentity (identity : String)
deriving DecidableEq, Repr

/-- Make the next call: the one that follows it, if there is one. -/
def Stamp.call (keyPrefix : String) : Stamp → Action Session CallError (Option Stamp)
  | .readName => do
    let name ← Session.readFact .appName
    return some (.writeName name)
  | .writeName name => do
    Session.write (propertyKey keyPrefix appNameProperty) name
    return some .readIdentity
  | .readIdentity => do
    let identity ← Session.readFact .applicationId
    return some (.writeIdentity identity)
  | .writeIdentity identity => do
    Session.write (propertyKey keyPrefix applicationIdProperty) identity
    return none

/-- How far a caller is. With a reservation it installs step by step, and settles what came of that. -/
inductive Caller where
  | arriving
  /-- It has forgotten what is gone, has some processors left to remove, and asks then. -/
  | asking (removals : List ProcessorId)
  | reserved (config : Config)
  | stamping (config : Config) (l : Listener) (stamp : Stamp)
  | undoing (l : Listener) (error : CallError)
  | registering (config : Config)
  | settling (r : Outcome InstallFailure ProcessorId)
  | returned (r : Outcome InstallError InstallReply)
deriving DecidableEq, Repr

/-- Forget the sessions that are gone: the processors that are to be removed then. -/
def Program.dropGone (g : InstallerId) (s : Program) : List ProcessorId × Program :=
  match s.installer? g with
  | none => ([], s)
  | some i => ((s.goneRows i).filterMap (·.2.processor?), s.modifyInstaller g s.keepRows)

theorem Program.forgetGone_eq_dropGone (g : InstallerId) (s : Program) :
    (forgetGone g s).2 =
      (s.dropGone g).1.foldl (fun s p => (s.unregister p).2) (s.dropGone g).2 := by
  cases hi : s.installer? g with
  | none => simp only [forgetGone, dropGone, hi, List.foldl_nil]
  | some i =>
    rw [forgetGone_eq hi, foldl_unregister]
    simp only [dropGone, hi]
    rfl

namespace Caller

/-- The caller and the program after its next step. One that has to wait, or that has returned, stays
where it is. -/
def step (g : InstallerId) (id : SessionId) : Caller → Program → Caller × Program
  | .arriving, s =>
    let (removals, s) := s.dropGone g
    (.asking removals, s)
  | .asking (p :: rest), s => (.asking rest, (s.unregister p).2)
  | .asking [], s =>
    match reserve g id s with
    | (.granted config, s) => (.reserved config, s)
    | (.installed, s) => (.returned (.done .alreadyInstalled), s)
    | (.stranded, s) => (.returned (.failed (.stranded id)), s)
    | (.waiting, s) => (.asking [], s)
  | .reserved config, s =>
    let (l, s) := s.newListener (.trail config.keyPrefix) (some g)
    match (attach id l).run s with
    | (.done (), s) => (.stamping config l .readName, s)
    | (.failed e, s) => (.settling (.failed ⟨e, false⟩), s)
    | (.crashed, s) => (.settling .crashed, s)
  | .stamping config l stamp, s =>
    match (onSession id (stamp.call config.keyPrefix)).run s with
    | (.done (some stamp), s) => (.stamping config l stamp, s)
    | (.done none, s) => (.registering config, s)
    | (.failed e, s) => (.undoing l e, s)
    | (.crashed, s) => (.settling .crashed, s)
  | .undoing l e, s =>
    let (r, s) := (rollBack id l e).run s
    (.settling r, s)
  | .registering config, s =>
    let (p, s) := s.register (.enricher ⟨id, config.integration, false⟩)
    (.settling (.done p), s)
  | .settling r, s => (.returned (replyAfter r), setStanding g id (standingAfter r) s)
  | .returned r, s => (.returned r, s)

/-- Whether a caller has reserved the session and has not yet settled what came of it. -/
def holds : Caller → Bool
  | .reserved _ | .stamping .. | .undoing .. | .registering _ | .settling _ => true
  | .arriving | .asking _ | .returned _ => false

def hasReturned : Caller → Bool
  | .returned _ => true
  | _ => false

/-- Whether a caller has been told that it put the trail on the session. -/
def hasInstalled (c : Caller) : Bool := c = .returned (.done .installed)

end Caller

/-! ## Races -/

/-- A program and the callers that ask one of its installers for one of its sessions. -/
structure Race where
  program : Program
  callers : List Caller

namespace Race

/-- Let a caller take its next step. -/
def advance (g : InstallerId) (id : SessionId) (r : Race) (n : Nat) : Race :=
  match r.callers[n]? with
  | some c =>
    let (c, program) := c.step g id r.program
    ⟨program, r.callers.set n c⟩
  | none => r

/-- Let callers take steps, in an order that is given by their places. -/
def perform (g : InstallerId) (id : SessionId) : List Nat → Race → Race
  | [], r => r
  | n :: rest, r => perform g id rest (r.advance g id n)

/-- A race at its start. -/
def start (s : Program) (n : Nat) : Race := ⟨s, List.replicate n .arriving⟩

/-- What every step preserves, a race preserves. -/
theorem perform_preserves {g : InstallerId} {id : SessionId} {P : Race → Prop}
    (step : ∀ r n, P r → P (r.advance g id n)) (schedule : List Nat) {r : Race} (h : P r) :
    P (perform g id schedule r) := by
  induction schedule generalizing r with
  | nil => exact h
  | cons n rest ih => exact ih (step r n h)

end Race

/-! ## A caller whom nobody disturbs -/

namespace Caller

variable {g : InstallerId} {id : SessionId}

/-- A caller that is alone gets from one place to another. -/
def Leads (g : InstallerId) (id : SessionId) : Caller × Program → Caller × Program → Prop :=
  Relation.ReflTransGen fun a b => a.1.step g id a.2 = b

theorem Leads.step {a b c : Caller × Program} (hb : a.1.step g id a.2 = b) (h : Leads g id b c) :
    Leads g id a c := Relation.ReflTransGen.head hb h

theorem Leads.trans {a b c : Caller × Program} (h : Leads g id a b) (h' : Leads g id b c) :
    Leads g id a c := Relation.ReflTransGen.trans h h'

theorem leads_removals (removals : List ProcessorId) (s : Program) :
    Leads g id (.asking removals, s)
      (.asking [], removals.foldl (fun s p => (s.unregister p).2) s) := by
  induction removals generalizing s with
  | nil => exact .refl
  | cons p rest ih => exact .step rfl (ih _)

/-- Where a caller and the program are when the calls for the identity properties have ended. -/
def behindStamps (config : Config) (l : Listener) : Outcome CallError Unit × Program → Caller × Program
  | (.done (), s) => (.registering config, s)
  | (.failed e, s) => (.undoing l e, s)
  | (.crashed, s) => (.settling .crashed, s)

theorem run_onSession_bind {α β : Type} (m : Action Session CallError α)
    (f : α → Action Session CallError β) (s : Program) :
    (onSession id (m >>= f)).run s = match (onSession id m).run s with
      | (.done a, t) => (onSession id (f a)).run t
      | (.failed e, t) => (.failed e, t)
      | (.crashed, t) => (.crashed, t) := by
  cases hx : s.session? id with
  | none => rw [run_onSession_of_none hx, run_onSession_of_none hx]
  | some x =>
    rw [run_onSession hx, run_onSession hx, Action.run_bind]
    rcases m.run x with ⟨a | _ | _, y⟩
    · have hy : ({ s with sessions := s.sessions.set id y } : Program).session? id = some y :=
        Table.get?_set_self _ _ _
      simp only
      rw [run_onSession hy]
      simp only [Table.set_set]
    · rfl
    · rfl

theorem run_onSession_map {α β : Type} (m : Action Session CallError α) (f : α → β) (s : Program) :
    (onSession id (m >>= fun a => pure (f a))).run s =
      (((onSession id m).run s).1.map f, ((onSession id m).run s).2) := by
  cases hx : s.session? id with
  | none => rw [run_onSession_of_none hx, run_onSession_of_none hx]; rfl
  | some x =>
    rw [run_onSession hx, run_onSession hx, Action.run_bind]
    rcases m.run x with ⟨a | _ | _, y⟩ <;> rfl

/-- One call for the identity properties, and what is done with its value. -/
theorem leads_call {α : Type} {config : Config} {l : Listener} {m : Action Session CallError α}
    {f : α → Stamp} {stamp : Stamp} {next : α → Action Session CallError Unit}
    (hcall : stamp.call config.keyPrefix = m >>= fun a => pure (some (f a)))
    (hnext : ∀ a t, Leads g id (.stamping config l (f a), t)
      (behindStamps config l ((onSession id (next a)).run t))) (s : Program) :
    Leads g id (.stamping config l stamp, s)
      (behindStamps config l ((onSession id (m >>= next)).run s)) := by
  have hstep : (Caller.stamping config l stamp).step g id s = match (onSession id m).run s with
      | (.done a, t) => (.stamping config l (f a), t)
      | (.failed e, t) => (.undoing l e, t)
      | (.crashed, t) => (.settling .crashed, t) := by
    simp only [Caller.step, hcall, run_onSession_map]
    rcases (onSession id m).run s with ⟨_ | _ | _, t⟩ <;> rfl
  rw [run_onSession_bind]
  refine .step hstep ?_
  rcases (onSession id m).run s with ⟨a | _ | _, t⟩
  · exact hnext a t
  · exact .refl
  · exact .refl

/-- One call after another, the identity properties are written as in one go. -/
theorem leads_stamps (config : Config) (l : Listener) (s : Program) :
    Leads g id (.stamping config l .readName, s)
      (behindStamps config l ((onSession id (Session.writeIdentity config.keyPrefix)).run s)) := by
  refine leads_call rfl (fun name t => leads_call rfl (fun _ t => leads_call rfl (fun identity t => ?_) t) t) s
  refine .step rfl ?_
  have hcall : (Stamp.writeIdentity identity).call config.keyPrefix =
      Session.write (propertyKey config.keyPrefix applicationIdProperty) identity >>= fun _ => pure none := rfl
  simp only [Caller.step, hcall, run_onSession_map]
  rcases (onSession id (Session.write (propertyKey config.keyPrefix applicationIdProperty) identity)).run t
    with ⟨_ | _ | _, u⟩ <;> exact .refl

/-- A caller that has reserved the session installs. -/
theorem leads_install (config : Config) (s : Program) :
    Leads g id (.reserved config, s)
      (.settling ((install g config id).run s).1, ((install g config id).run s).2) := by
  refine .step rfl ?_
  rw [run_install]
  simp only [Caller.step]
  rcases (attach id (s.newListener (.trail config.keyPrefix) (some g)).1).run
    (s.newListener (.trail config.keyPrefix) (some g)).2 with ⟨_ | e | _, t⟩
  · refine (leads_stamps config _ t).trans ?_
    simp only [writeIdentity]
    rcases (onSession id (Session.writeIdentity config.keyPrefix)).run t with ⟨_ | e | _, u⟩
    · exact .step rfl .refl
    · exact .step rfl .refl
    · exact .refl
  · exact .refl
  · exact .refl

/-- A caller whom nobody disturbs returns with what the activation answers, in the program that this
leaves, unless it has to wait. -/
theorem leads_ensureInstalled (s : Program)
    (hwait : ((ensureInstalled g id).run s).1 ≠ .done .waiting) :
    Leads g id (.arriving, s)
      (.returned ((ensureInstalled g id).run s).1, ((ensureInstalled g id).run s).2) := by
  have harrive : Caller.arriving.step g id s = (.asking (s.dropGone g).1, (s.dropGone g).2) := rfl
  refine .step harrive ((leads_removals _ _).trans ?_)
  rw [← forgetGone_eq_dropGone]
  have hask : ∀ t, (Caller.asking []).step g id t = match reserve g id t with
      | (.granted config, u) => (.reserved config, u)
      | (.installed, u) => (.returned (.done .alreadyInstalled), u)
      | (.stranded, u) => (.returned (.failed (.stranded id)), u)
      | (.waiting, u) => (.asking [], u) := fun t => rfl
  have hrun : (ensureInstalled g id).run s = match reserve g id (forgetGone g s).2 with
      | (.granted config, u) => (installReserved g config id).run u
      | (.installed, u) => (.done .alreadyInstalled, u)
      | (.stranded, u) => (.failed (.stranded id), u)
      | (.waiting, u) => (.done .waiting, u) := rfl
  refine .step (hask _) ?_
  rw [hrun] at hwait ⊢
  rcases hr : reserve g id (forgetGone g s).2 with ⟨config | _ | _ | _, u⟩
  · simp only [run_installReserved]
    exact (leads_install config u).trans (.step rfl .refl)
  · exact .refl
  · exact .refl
  · rw [hr] at hwait
    exact absurd rfl hwait

end Caller

end SessionTrail

import SessionTrail.Proofs.Calm
import SessionTrail.Proofs.Footing

/-!
# Races install once

However the steps of racing callers fall, at most one of them holds the session at any time, and what the
installer has at the session is what its standing and the progress of that caller tell. So at most one
installs, and the others are told so only when the installation is complete.
-/
namespace SessionTrail

open Program World

variable {n : Nat} {g : InstallerId} {id : SessionId} {s t : Program}

/-! ## What is known of callers -/

/-- What a caller knows of the program. One that holds the session knows all that is there; one that has
returned knows what it was told. -/
def Caller.Fits (n : Nat) (g : InstallerId) (id : SessionId) (s : Program) : Caller → Prop
  | .arriving => True
  | .asking removals => ∀ p ∈ removals, p.val < n
  | .reserved _ => s.Footing n g id (some .installing) none none
  | .stamping _ l _ | .undoing l _ => s.Footing n g id (some .installing) (some l) none
  | .registering _ => ∃ l, s.Footing n g id (some .installing) (some l) none
  | .settling (.done p) => ∃ l, s.Footing n g id (some .installing) (some l) (some p)
  | .settling (.failed f) =>
    ∃ l?, s.Footing n g id (some .installing) l? none ∧ l?.isSome = f.stranded
  | .returned (.done .installed) | .returned (.done .alreadyInstalled) =>
    ∃ p, s.standing? g id = some (.installed p)
  | .returned (.failed (.stranded id')) => id' = id ∧ s.standing? g id = some .stranded
  | .returned (.failed (.session _)) => True
  | .settling .crashed | .returned (.done .waiting) | .returned .crashed => False

/-- What is there while nobody holds the session. -/
def Program.Rests (s : Program) (n : Nat) (g : InstallerId) (id : SessionId) : Prop :=
  s.Footing n g id none none none ∨
  (∃ p l, s.Footing n g id (some (.installed p)) (some l) (some p)) ∨
  ∃ l, s.Footing n g id (some .stranded) (some l) none

namespace Caller

variable {c : Caller}

/-- A caller that holds the session has its installer installing. -/
theorem Fits.footing (h : c.Fits n g id s) (hc : c.holds = true) :
    ∃ l? p?, s.Footing n g id (some .installing) l? p? := by
  cases c with
  | reserved => exact ⟨none, none, h⟩
  | stamping _ l => exact ⟨some l, none, h⟩
  | undoing l => exact ⟨some l, none, h⟩
  | registering => exact ⟨_, none, h.choose_spec⟩
  | settling r =>
    rcases r with p | f | _
    · exact ⟨_, some p, h.choose_spec⟩
    · exact ⟨_, none, h.choose_spec.1⟩
    · exact h.elim
  | arriving | asking | returned => cases hc

/-- What a step leaves as it is, all callers go on to know. -/
theorem Fits.upheld (h : c.Fits n g id s)
    (hf : ∀ st l? p?, s.Footing n g id st l? p? → t.Footing n g id st l? p?)
    (hst : t.standing? g id = s.standing? g id) : c.Fits n g id t := by
  cases c with
  | arriving => trivial
  | asking => exact h
  | reserved | stamping | undoing => exact hf _ _ _ h
  | registering => exact h.imp fun _ => hf _ _ _
  | settling r =>
    rcases r with p | f | _
    · exact h.imp fun _ => hf _ _ _
    · exact h.imp fun _ => And.imp_left (hf _ _ _)
    · exact h
  | returned r =>
    rcases r with (_ | _ | _) | (_ | _) | _ <;> simp only [Fits, hst] at h ⊢ <;> exact h

/-- As long as nothing is settled, callers that do not hold the session know nothing of the program. -/
theorem Fits.bystander (h : c.Fits n g id s) (hc : c.holds = false)
    (hs : s.standing? g id = none ∨ s.standing? g id = some .installing) : c.Fits n g id t := by
  have hno : ∀ st, s.standing? g id = some st → st = .installing := fun st he => by
    rcases hs with hs | hs <;> rw [hs] at he <;> cases he
    rfl
  cases c with
  | arriving => trivial
  | asking => exact h
  | reserved | stamping | undoing | registering | settling => cases hc
  | returned r =>
    rcases r with (_ | _ | _) | (_ | _) | _
    · obtain ⟨p, hp⟩ := h
      exact absurd (hno _ hp) nofun
    · obtain ⟨p, hp⟩ := h
      exact absurd (hno _ hp) nofun
    · exact h
    · trivial
    · exact absurd (hno _ h.2) nofun
    · exact h

/-! ### Steps of a caller that holds the session -/

theorem stamp_keeps_core (keyPrefix : String) (stamp : Stamp) :
    (stamp.call keyPrefix).Keeps Session.core := by
  cases stamp with
  | readName | readIdentity =>
    exact (Session.readFact_keeps_core _).bind fun _ => Action.keeps_pure _
  | writeName | writeIdentity =>
    exact (Session.write_keeps_core _ _).bind fun _ => Action.keeps_pure _

theorem stamp_serves (keyPrefix : String) (stamp : Stamp) :
    (stamp.call keyPrefix).Serves (·.backend.Calm) := by
  cases stamp with
  | readName | readIdentity =>
    exact (Session.readFact_serves _).bind fun _ => Action.serves_pure _
  | writeName | writeIdentity =>
    exact (Session.write_serves _ _).bind fun _ => Action.serves_pure _

/-- What a caller that holds the session and has not to settle yet does next, it does holding the
session. -/
theorem Fits.act (h : c.Fits n g id s) (hc : c.holds = true) (hr : ∀ r, c ≠ .settling r) :
    (c.step g id s).1.holds = true ∧ (c.step g id s).1.Fits n g id (c.step g id s).2 := by
  cases c with
  | reserved config =>
    obtain ⟨t, ht, hf⟩ | ⟨e, t, ht, hf⟩ := Footing.attach h (.trail config.keyPrefix) <;>
      simp only [Caller.step, ht]
    · exact ⟨rfl, hf⟩
    · exact ⟨rfl, none, hf, rfl⟩
  | stamping config l stamp =>
    obtain ⟨next, t, ht, hf⟩ | ⟨e, t, ht, hf⟩ := Footing.call h (stamp_keeps_core config.keyPrefix stamp)
      (stamp_serves config.keyPrefix stamp)
    · cases next with
      | none =>
        simp only [Caller.step, ht]
        exact ⟨rfl, l, hf⟩
      | some next =>
        simp only [Caller.step, ht]
        exact ⟨rfl, hf⟩
    · simp only [Caller.step, ht]
      exact ⟨rfl, hf⟩
  | undoing l e =>
    obtain ⟨stranded, t, ht, hf⟩ := Footing.rollBack h e
    simp only [Caller.step, ht]
    refine ⟨rfl, _, hf, ?_⟩
    cases stranded <;> rfl
  | registering config =>
    obtain ⟨l, hf⟩ := h
    exact ⟨rfl, l, hf.register rfl⟩
  | settling r => exact absurd rfl (hr r)
  | arriving | asking | returned => cases hc

/-- What a caller settles is what it leaves. -/
theorem Fits.settle {r : Outcome InstallFailure ProcessorId}
    (h : (Caller.settling r).Fits n g id s) :
    let t := setStanding g id (standingAfter r) s
    (Caller.returned (replyAfter r)).Fits n g id t ∧ t.Rests n g id ∧
      t.standing? g id = standingAfter r := by
  intro t
  rcases r with p | ⟨e, stranded⟩ | _
  · obtain ⟨l, hf⟩ := h
    have ht := hf.setStanding (some (.installed p))
    exact ⟨⟨p, ht.ledger.standing⟩, .inr (.inl ⟨p, l, ht⟩), ht.ledger.standing⟩
  · obtain ⟨l?, hf, hl⟩ := h
    have ht := hf.setStanding (if stranded then some .stranded else none)
    refine ⟨trivial, ?_, ht.ledger.standing⟩
    cases stranded with
    | false =>
      rw [Option.isSome_eq_false_iff, Option.isNone_iff_eq_none] at hl
      rw [hl] at ht
      exact .inl ht
    | true =>
      obtain ⟨l, rfl⟩ := Option.isSome_iff_exists.mp hl
      exact .inr (.inr ⟨l, ht⟩)
  · exact h.elim

end Caller

/-! ## Orderly races -/

/-- The invariant of races. -/
structure Race.Orderly (n : Nat) (g : InstallerId) (id : SessionId) (r : Race) : Prop where
  fits : ∀ c ∈ r.callers, c.Fits n g id r.program
  holders : r.callers.countP (·.holds) =
    if r.program.standing? g id = some .installing then 1 else 0
  installed : r.callers.countP (·.hasInstalled) =
    if (r.program.standing? g id).any (·.isInstalled) then 1 else 0
  rests : r.program.standing? g id ≠ some .installing → r.program.Rests n g id

namespace Race.Orderly

variable {r : Race} {pre post : List Caller} {c c' : Caller}

theorem footing (h : r.Orderly n g id) : ∃ st l? p?, r.program.Footing n g id st l? p? := by
  by_cases hst : r.program.standing? g id = some .installing
  · have hone := h.holders
    rw [if_pos hst] at hone
    obtain ⟨c, hm, hc⟩ := List.countP_pos_iff.mp (Nat.lt_of_lt_of_eq Nat.zero_lt_one hone.symm)
    obtain ⟨l?, p?, hf⟩ := (h.fits c hm).footing hc
    exact ⟨_, l?, p?, hf⟩
  · rcases h.rests hst with hf | ⟨p, l, hf⟩ | ⟨l, hf⟩
    · exact ⟨_, _, _, hf⟩
    · exact ⟨_, _, _, hf⟩
    · exact ⟨_, _, _, hf⟩

/-- A step that leaves all as it is but its caller, who neither gets hold of the session nor lets go of
it. -/
theorem upheld (h : (Race.mk s (pre ++ c :: post)).Orderly n g id)
    (hf : ∀ st l? p?, s.Footing n g id st l? p? → t.Footing n g id st l? p?)
    (own : c'.Fits n g id t) (holds : c'.holds = c.holds)
    (installed : c'.hasInstalled = c.hasInstalled) :
    (Race.mk t (pre ++ c' :: post)).Orderly n g id := by
  obtain ⟨st, l?, p?, hfoot⟩ := h.footing
  have hst : t.standing? g id = s.standing? g id :=
    (hf _ _ _ hfoot).ledger.standing.trans hfoot.ledger.standing.symm
  have hh := h.holders
  have hi := h.installed
  simp only [List.countP_append, List.countP_cons] at hh hi
  refine ⟨fun b hb => ?_, ?_, ?_, fun hne => ?_⟩
  · rcases List.mem_append.mp hb with hb | hb
    · exact (h.fits b (List.mem_append_left _ hb)).upheld hf hst
    · rcases List.mem_cons.mp hb with rfl | hb
      · exact own
      · exact (h.fits b (List.mem_append_right _ (List.mem_cons_of_mem _ hb))).upheld hf hst
  · simp only [List.countP_append, List.countP_cons, hst, holds]
    exact hh
  · simp only [List.countP_append, List.countP_cons, hst, installed]
    exact hi
  · rw [hst] at hne
    exact (h.rests hne).imp (hf _ _ _) (Or.imp (fun ⟨p, l, hp⟩ => ⟨p, l, hf _ _ _ hp⟩)
      fun ⟨l, hp⟩ => ⟨l, hf _ _ _ hp⟩)

/-- A step of a caller that gets hold of the session, or holds it already. -/
theorem acted (h : (Race.mk s (pre ++ c :: post)).Orderly n g id)
    (hopen : s.standing? g id = none ∨ c.holds = true) (own : c'.Fits n g id t)
    (holds : c'.holds = true ↔ t.standing? g id = some .installing)
    (installed : c'.hasInstalled = (t.standing? g id).any (·.isInstalled))
    (rests : t.standing? g id ≠ some .installing → t.Rests n g id) :
    (Race.mk t (pre ++ c' :: post)).Orderly n g id := by
  have hs : s.standing? g id = none ∨ s.standing? g id = some .installing :=
    hopen.imp_right fun hc =>
      let ⟨_, _, hf⟩ := (h.fits c (by simp)).footing hc
      hf.ledger.standing
  have hh := h.holders
  have hi := h.installed
  simp only [List.countP_append, List.countP_cons] at hh hi
  -- Nobody else holds the session, and nobody has been told that it has been installed.
  have hothers : pre.countP (·.holds) = 0 ∧ post.countP (·.holds) = 0 := by
    rcases hopen with hn | hc
    · simp only [hn, reduceCtorEq, if_false] at hh
      omega
    · rw [if_pos hc] at hh
      split at hh <;> omega
  have hnone : pre.countP (·.hasInstalled) = 0 ∧ post.countP (·.hasInstalled) = 0 := by
    have hno : (s.standing? g id).any (·.isInstalled) = false := by
      rcases hs with hs | hs <;> rw [hs] <;> rfl
    simp only [hno, Bool.false_eq_true, if_false] at hi
    omega
  have hby : ∀ b, b ∈ pre ∨ b ∈ post → b.Fits n g id t := fun b hb => by
    have hb' : b.holds = false := by
      rw [Bool.eq_false_iff]
      rcases hb with hb | hb
      · exact List.countP_eq_zero.mp hothers.1 b hb
      · exact List.countP_eq_zero.mp hothers.2 b hb
    refine Caller.Fits.bystander (h.fits b ?_) hb' hs
    rcases hb with hb | hb
    · exact List.mem_append_left _ hb
    · exact List.mem_append_right _ (List.mem_cons_of_mem _ hb)
  refine ⟨fun b hb => ?_, ?_, ?_, rests⟩
  · rcases List.mem_append.mp hb with hb | hb
    · exact hby b (.inl hb)
    · rcases List.mem_cons.mp hb with rfl | hb
      · exact own
      · exact hby b (.inr hb)
  · simp only [List.countP_append, List.countP_cons, hothers, holds, Nat.zero_add]
  · simp only [List.countP_append, List.countP_cons, hnone, installed, Nat.zero_add]

end Race.Orderly

/-! ## Steps -/

namespace Race.Orderly

variable {pre post : List Caller} {c : Caller}

/-- The race behind a step of a caller. -/
def after (g : InstallerId) (id : SessionId) (s : Program) (pre : List Caller) (c : Caller)
    (post : List Caller) : Race := ⟨(c.step g id s).2, pre ++ (c.step g id s).1 :: post⟩

theorem ask (h : (Race.mk s (pre ++ .asking [] :: post)).Orderly n g id) :
    (after g id s pre (.asking []) post).Orderly n g id := by
  obtain ⟨_, _, _, hfoot⟩ := h.footing
  obtain ⟨i, hi⟩ := Option.isSome_iff_exists.mp hfoot.ledger.made
  rcases hst : s.standing? g id with _ | st
  · have hfree : s.Footing n g id none none none := by
      rcases h.rests (by rw [hst]; nofun) with hf | ⟨_, _, hf⟩ | ⟨_, hf⟩
      · exact hf
      · exact absurd (hst.symm.trans hf.ledger.standing) nofun
      · exact absurd (hst.symm.trans hf.ledger.standing) nofun
    have hs : i.standings.get? id = none := by
      rw [standing?, hi, Option.bind_some] at hst
      exact hst
    have ht := hfree.setStanding (some .installing)
    simp only [after, Caller.step, reserve_of_free hi hs]
    refine h.acted (.inl hst) ht ⟨fun _ => ht.ledger.standing, fun _ => rfl⟩ ?_ fun hne => ?_
    · rw [ht.ledger.standing]
      rfl
    · exact absurd ht.ledger.standing hne
  · simp only [after, Caller.step, reserve_of_standing hst]
    cases st with
    | installing => exact h
    | installed p => exact h.upheld (fun _ _ _ hf => hf) ⟨p, hst⟩ rfl rfl
    | stranded => exact h.upheld (fun _ _ _ hf => hf) ⟨rfl, hst⟩ rfl rfl

/-- A step of a caller that goes on to hold the session. -/
theorem held (h : (Race.mk s (pre ++ c :: post)).Orderly n g id) (hc : c.holds = true) {c' : Caller}
    (hc' : c'.holds = true) (own : c'.Fits n g id t) :
    (Race.mk t (pre ++ c' :: post)).Orderly n g id := by
  obtain ⟨_, _, hf⟩ := own.footing hc'
  refine h.acted (.inr hc) own ⟨fun _ => hf.ledger.standing, fun _ => hc'⟩ ?_ fun hne => ?_
  · rw [hf.ledger.standing]
    cases c' with
    | returned => cases hc'
    | _ => rfl
  · exact absurd hf.ledger.standing hne

theorem settle {r : Outcome InstallFailure ProcessorId}
    (h : (Race.mk s (pre ++ .settling r :: post)).Orderly n g id) :
    (after g id s pre (.settling r) post).Orderly n g id := by
  have hown : (Caller.settling r).Fits n g id s := h.fits (.settling r) (by simp)
  obtain ⟨own, rests, hafter⟩ := hown.settle
  have hst : ((Caller.settling r).step g id s).2.standing? g id = standingAfter r := hafter
  refine h.acted (.inr rfl) own ⟨nofun, fun hinst => ?_⟩ ?_ fun _ => rests
  · rw [hst] at hinst
    rcases r with _ | ⟨_, _ | _⟩ | _ <;> cases hinst
  · rw [hst]
    rcases r with _ | ⟨_, _ | _⟩ | _ <;> rfl

/-- Whatever a caller does next, the race stays orderly. -/
theorem step (h : (Race.mk s (pre ++ c :: post)).Orderly n g id) :
    (after g id s pre c post).Orderly n g id := by
  cases c with
  | arriving =>
    obtain ⟨_, _, _, hfoot⟩ := h.footing
    exact h.upheld (fun _ _ _ hf => hf.dropGone.1) hfoot.dropGone.2 rfl rfl
  | asking removals =>
    cases removals with
    | nil => exact h.ask
    | cons p rest =>
      have hown : ∀ q ∈ p :: rest, q.val < n := h.fits (.asking (p :: rest)) (by simp)
      have hp := hown p List.mem_cons_self
      exact h.upheld (fun _ _ _ hf => hf.unregister hp) (fun q hq => hown q (List.mem_cons_of_mem _ hq))
        rfl rfl
  | settling r => exact h.settle
  | returned r => exact h
  | reserved | stamping | undoing | registering =>
    obtain ⟨hc, hown⟩ := (h.fits _ (List.mem_append_right _ List.mem_cons_self)).act rfl nofun
    exact h.held rfl hc hown

end Race.Orderly

namespace Race

variable {r : Race}

/-- The place of a caller in the race. -/
theorem advance_eq (g : InstallerId) (id : SessionId) {k : Nat} {c : Caller}
    (hc : r.callers[k]? = some c) :
    ∃ pre post, r.callers = pre ++ c :: post ∧
      r.advance g id k = ⟨(c.step g id r.program).2, pre ++ (c.step g id r.program).1 :: post⟩ := by
  obtain ⟨hk, rfl⟩ := List.getElem?_eq_some_iff.mp hc
  obtain ⟨pre, post, hsplit, _, hset⟩ : ∃ pre post, r.callers = pre ++ r.callers[k] :: post ∧
      pre.length = k ∧ r.callers.set k (r.callers[k].step g id r.program).1 =
        pre ++ (r.callers[k].step g id r.program).1 :: post := List.exists_of_set hk
  refine ⟨pre, post, hsplit, ?_⟩
  simp only [advance, hc, hset]

theorem Orderly.advance (h : r.Orderly n g id) (k : Nat) : (r.advance g id k).Orderly n g id := by
  cases hc : r.callers[k]? with
  | none =>
    simp only [Race.advance, hc]
    exact h
  | some c =>
    obtain ⟨pre, post, hsplit, hadvance⟩ := advance_eq g id hc
    rw [hadvance]
    rw [show r = ⟨r.program, pre ++ c :: post⟩ by rw [← hsplit]] at h
    exact h.step

end Race

end SessionTrail

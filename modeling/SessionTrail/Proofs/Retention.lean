import Mathlib.Data.List.DropRight
import Mathlib.Logic.Relation
import SessionTrail.Proofs.Pipeline

/-!
# The latest breadcrumbs

A reporter makes room for a breadcrumb by letting the oldest ones go, one at a time. Where any breadcrumb is
kept at all this comes to an end, and always at the same buffer. So the reporter has the latest of the
breadcrumbs that were left since they were last cleared, as many of them as it may keep, and its buffer is
never longer than that, also not while room is made (`latest_crumbs_are_kept`).
-/
namespace SessionTrail.Reporter

/-! ## Making room -/

section

variable {limit : Nat} {crumbs rest : List Breadcrumb}

/-- One turn of making room: the buffer is full, and the oldest breadcrumb goes, if there is one. -/
def GivesWay (limit : Nat) (before after : List Breadcrumb) : Prop :=
  limit ≤ before.length ∧ after = before.tail

/-- Any number of turns. -/
abbrev Evicts (limit : Nat) : List Breadcrumb → List Breadcrumb → Prop :=
  Relation.ReflTransGen (GivesWay limit)

/-- No buffer makes room for ever. -/
theorem wellFounded_givesWay (h : 0 < limit) :
    WellFounded fun after before => GivesWay limit before after := by
  refine Subrelation.wf ?_ (measure List.length).wf
  rintro _ before ⟨hfull, rfl⟩
  have hlength := before.length_tail
  show before.tail.length < before.length
  omega

theorem suffix_of_evicts (h : Evicts limit crumbs rest) : rest <:+ crumbs := by
  induction h with
  | refl => exact List.suffix_rfl
  | tail _ hturn ih =>
    obtain ⟨-, rfl⟩ := hturn
    exact (List.tail_suffix _).trans ih

/-- As many breadcrumbs go as stand in the way of one more. -/
theorem evicts_drop (limit : Nat) (crumbs : List Breadcrumb) :
    Evicts limit crumbs (crumbs.drop (crumbs.length + 1 - limit)) := by
  induction crumbs with
  | nil => exact (List.drop_nil (α := Breadcrumb)).symm ▸ .refl
  | cons oldest others ih =>
    by_cases hfull : limit ≤ others.length + 1
    · have hdrop : (oldest :: others).drop ((oldest :: others).length + 1 - limit) =
          others.drop (others.length + 1 - limit) := by
        rw [List.length_cons, show others.length + 1 + 1 - limit = others.length + 1 - limit + 1 by omega,
          List.drop_succ_cons]
      exact hdrop ▸ .head ⟨hfull, rfl⟩ ih
    · rw [show (oldest :: others).length + 1 - limit = 0 by rw [List.length_cons]; omega]
      exact .refl

/-- Where the turns end there are no more and no fewer breadcrumbs left than that. -/
theorem eq_drop_of_evicts (h : Evicts limit crumbs rest) (hroom : rest.length < limit) :
    rest = crumbs.drop (crumbs.length + 1 - limit) := by
  induction h using Relation.ReflTransGen.head_induction_on with
  | refl => rw [show rest.length + 1 - limit = 0 by omega, List.drop_zero]
  | head hturn _ ih =>
    obtain ⟨hfull, rfl⟩ := hturn
    rw [ih, List.drop_tail, List.length_tail]
    congr 1
    omega

theorem length_drop_lt (h : 0 < limit) (crumbs : List Breadcrumb) :
    (crumbs.drop (crumbs.length + 1 - limit)).length < limit := by
  rw [List.length_drop]
  omega

theorem pushWithin_of_pos (h : 0 < limit) (crumbs : List Breadcrumb) (crumb : Breadcrumb) :
    pushWithin limit crumbs crumb = crumbs.drop (crumbs.length + 1 - limit) ++ [crumb] :=
  if_neg (Nat.ne_of_gt h)

/-- The latest of some breadcrumbs and one more. -/
theorem pushWithin_rtake (limit : Nat) (crumbs : List Breadcrumb) (crumb : Breadcrumb) :
    pushWithin limit (crumbs.rtake limit) crumb = (crumbs ++ [crumb]).rtake limit := by
  cases limit with
  | zero => rw [pushWithin, if_pos rfl, List.rtake_zero, List.rtake_zero]
  | succ n =>
    rw [pushWithin_of_pos (Nat.succ_pos n), List.rtake_concat_succ, List.rtake, List.rtake, List.drop_drop,
      List.length_drop]
    congr 2
    omega

end

/-! ## Requests -/

section

variable {π : Type} {run : π → Hint → Report → Option Report}

def Request.clears : Request π → Bool
  | .clearCrumbs => true
  | _ => false

/-- The breadcrumb that a request leaves. -/
def Request.crumb? : Request π → Option Breadcrumb
  | .leave crumb => some crumb
  | _ => none

/-- The breadcrumbs that were left since they were last cleared, in the order in which they came. -/
def lately (past : List (Request π)) : List Breadcrumb :=
  (past.rtakeWhile (!·.clears)).filterMap Request.crumb?

theorem lately_concat_clear {q : Request π} (h : q.clears = true) (past : List (Request π)) :
    lately (past ++ [q]) = [] := by
  rw [lately, List.rtakeWhile_concat_neg _ _ _ (by simp [h]), List.filterMap_nil]

theorem lately_concat {q : Request π} (h : q.clears = false) (past : List (Request π)) :
    lately (past ++ [q]) = lately past ++ q.crumb?.toList := by
  rw [lately, List.rtakeWhile_concat_pos _ _ _ (by simp [h]), List.filterMap_append, lately]
  cases hq : q.crumb? <;> simp [hq]

theorem lately_concat_other {q : Request π} (h : q.clears = false) (hq : q.crumb? = none)
    (past : List (Request π)) : lately (past ++ [q]) = lately past := by
  rw [lately_concat h, hq, Option.toList_none, List.append_nil]

theorem retention_crumbs_submit (r : Reporter π) (report : Report) (hint : Hint) :
    (r.submit (run · hint) report).2.retention = r.retention ∧
      (r.submit (run · hint) report).2.breadcrumbs = r.breadcrumbs := by
  rw [submit_eq_final?]
  cases r.final? run report hint <;> exact ⟨rfl, rfl⟩

theorem retention_next (q : Request π) (r : Reporter π) : (q.next run r).retention = r.retention := by
  cases q with
  | register | unregister | leave | clearCrumbs => rfl
  | submit report hint => exact (retention_crumbs_submit r report hint).1

theorem retention_perform (past : List (Request π)) (r : Reporter π) :
    (perform run past r).retention = r.retention := by
  induction past generalizing r with
  | nil => rfl
  | cons q rest ih => exact (ih (q.next run r)).trans (retention_next q r)

/-- A reporter that has nothing at first has the latest breadcrumbs. -/
theorem crumbs_perform (retention : Retention) (past : List (Request π)) :
    (perform run past { retention }).breadcrumbs =
      (lately past).rtake retention.breadcrumbLimit.toNat := by
  induction past using List.reverseRecOn with
  | nil => exact (List.rtake_nil _).symm
  | append_singleton past q ih =>
    rw [perform_append]
    cases q with
    | leave crumb =>
      have hretention : (perform run past { retention }).retention = retention := retention_perform past _
      have hleave := pushWithin_rtake retention.breadcrumbLimit.toNat (lately past) crumb
      rw [← ih, ← congrArg Retention.breadcrumbLimit hretention] at hleave
      exact hleave.trans (by rw [lately_concat rfl, hretention]; rfl)
    | clearCrumbs =>
      rw [lately_concat_clear rfl, List.rtake_nil]
      rfl
    | submit report hint =>
      rw [lately_concat_other rfl rfl, ← ih]
      exact (retention_crumbs_submit _ report hint).2
    | register | unregister =>
      rw [lately_concat_other rfl rfl, ← ih]
      rfl

theorem length_rtake_le (crumbs : List Breadcrumb) (limit : Nat) : (crumbs.rtake limit).length ≤ limit := by
  rw [List.rtake, List.length_drop]
  omega

/-- Whatever a new reporter was asked, it has the latest of the breadcrumbs that were left since they were
last cleared, up to its limit, in the order in which they came. One that may keep none takes none. Any other
makes room for one more in a number of turns that always ends, and wherever they end, the new one comes
behind what they have left. The buffer is never beyond the limit, in no turn either. -/
theorem latest_crumbs_are_kept (run : π → Hint → Report → Option Report) (retention : Retention)
    (past : List (Request π)) :
    let limit := retention.breadcrumbLimit.toNat
    let r := perform run past { retention }
    r.breadcrumbs = (lately past).rtake limit ∧
      (limit = 0 → ∀ crumb, r.pushCrumb crumb = r) ∧
      (0 < limit → WellFounded (fun after before => GivesWay limit before after) ∧
        ∃ room, Evicts limit r.breadcrumbs room ∧ room.length < limit ∧
          (∀ other, Evicts limit r.breadcrumbs other → other.length < limit → other = room) ∧
          ∀ crumb, r.pushCrumb crumb = { r with breadcrumbs := room ++ [crumb] }) ∧
      ∀ between, Evicts limit r.breadcrumbs between → between.length ≤ limit := by
  intro limit r
  have hcrumbs : r.breadcrumbs = (lately past).rtake limit := crumbs_perform retention past
  have hlimit : r.retention.breadcrumbLimit.toNat = limit := by
    rw [show r.retention = retention from retention_perform past { retention }]
  refine ⟨hcrumbs, fun hzero crumb => ?_, fun hpos => ⟨wellFounded_givesWay hpos, ?_⟩, fun between h => ?_⟩
  · rw [pushCrumb, hlimit, hzero, pushWithin, if_pos rfl]
  · refine ⟨_, evicts_drop limit r.breadcrumbs, length_drop_lt hpos _,
      fun other h hroom => eq_drop_of_evicts h hroom, fun crumb => ?_⟩
    rw [pushCrumb, hlimit, pushWithin_of_pos hpos]
  · exact Nat.le_trans (suffix_of_evicts h).length_le (hcrumbs ▸ length_rtake_le _ limit)

end

/-- A breadcrumb that only says which one it is. -/
def numbered (n : Nat) : Breadcrumb := ⟨.epoch, .info, decimalText n, .empty⟩

/-- One breadcrumb before the buffer is cleared and three behind it, among other requests. -/
def scattered : List (Request Rule) :=
  [.leave (numbered 0), .clearCrumbs, .leave (numbered 1), .register .drop, .leave (numbered 2),
    .submit (.new ⟨1⟩ .epoch .error) .empty, .leave (numbered 3)]

theorem two_of_three_crumbs_are_kept :
    let r := perform Rule.make scattered { retention := ⟨2⟩ }
    let closed := perform Rule.make scattered { retention := ⟨0⟩ }
    r.breadcrumbs = [numbered 2, numbered 3] ∧
      (∃ room, Evicts 2 r.breadcrumbs room ∧ room.length < 2 ∧
        r.pushCrumb (numbered 4) = { r with breadcrumbs := room ++ [numbered 4] }) ∧
      (∀ between, Evicts 2 r.breadcrumbs between → between.length ≤ 2) ∧
      closed.pushCrumb (numbered 4) = closed := by
  intro r closed
  obtain ⟨hcrumbs, -, hroom, hbetween⟩ := latest_crumbs_are_kept Rule.make ⟨2⟩ scattered
  obtain ⟨-, room, hevicts, hlength, -, hpush⟩ := hroom (by decide)
  exact ⟨hcrumbs.trans (by decide), ⟨room, hevicts, hlength, hpush _⟩, hbetween,
    (latest_crumbs_are_kept Rule.make ⟨0⟩ scattered).2.1 rfl _⟩

end SessionTrail.Reporter

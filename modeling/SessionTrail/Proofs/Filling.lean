import SessionTrail.Proofs.Trouble
import SessionTrail.Program.Submission

/-!
# Filling a report

How a report is filled where each attribute has a fixed answer: a value, nothing, a refusal or a crash.
What a report says stays, so a second filling finds every place as the first one left it: it changes
nothing and ends as the first one did (`Report.fillFrom_fillFrom`).
-/
namespace SessionTrail

namespace Report

/-- Fill the places of a plan from fixed answers: how that ended, and the report as far as it got. -/
def fillFrom (answer : Attribute → Outcome CallError (Option String)) :
    List (Place × Attribute) → Report → Outcome CallError Unit × Report
  | [], r => (.done (), r)
  | (place, a) :: rest, r =>
    if (r.at? place).isSome then fillFrom answer rest r
    else
      match answer a with
      | .done (some value) => fillFrom answer rest (r.put value place)
      | .done none => fillFrom answer rest r
      | .failed e => (.failed e, r)
      | .crashed => (.crashed, r)

theorem at?_put (r : Report) (value : String) (place other : Place) :
    (r.put value place).at? other = if other = place then some value else r.at? other := by
  cases place with
  | userId => cases other <;> simp [put, at?]
  | tag key => cases other <;> simp [put, at?, SortedMap.get?_insert]
  | extra key => cases other <;> simp [put, at?, SortedMap.get?_insert]

theorem eventId_put (r : Report) (value : String) (place : Place) :
    (r.put value place).eventId = r.eventId := by
  cases place <;> rfl

section

variable (answer : Attribute → Outcome CallError (Option String)) (plan : List (Place × Attribute))
  (r : Report)

/-- What a report says, it still says when it has been filled. -/
theorem at?_fillFrom {place : Place} (h : (r.at? place).isSome = true) :
    (fillFrom answer plan r).2.at? place = r.at? place := by
  induction plan generalizing r with
  | nil => rfl
  | cons step rest ih =>
    obtain ⟨p, a⟩ := step
    rw [fillFrom]
    split
    · exact ih r h
    · rename_i hp
      have hne : place ≠ p := fun he => hp (he ▸ h)
      split
      · rename_i value _
        have hput : (r.put value p).at? place = r.at? place := by rw [at?_put, if_neg hne]
        rw [ih _ (by rw [hput]; exact h), hput]
      · exact ih r h
      · rfl
      · rfl

theorem eventId_fillFrom : (fillFrom answer plan r).2.eventId = r.eventId := by
  induction plan generalizing r with
  | nil => rfl
  | cons step rest ih =>
    obtain ⟨p, a⟩ := step
    rw [fillFrom]
    split
    · exact ih r
    · split
      · exact (ih _).trans (r.eventId_put _ p)
      · exact ih r
      · rfl
      · rfl

/-- A second filling changes nothing and ends as the first one did. -/
theorem fillFrom_fillFrom :
    fillFrom answer plan (fillFrom answer plan r).2 = fillFrom answer plan r := by
  induction plan generalizing r with
  | nil => rfl
  | cons step rest ih =>
    obtain ⟨p, a⟩ := step
    -- The first step is passed over if its place is taken, by the report itself or by the first filling.
    have pass : ∀ q : Report, (q.at? p).isSome = true →
        fillFrom answer ((p, a) :: rest) (fillFrom answer rest q).2 = fillFrom answer rest q := by
      intro q hq
      rw [fillFrom, if_pos (by rw [at?_fillFrom answer rest q hq]; exact hq), ih]
    by_cases hp : (r.at? p).isSome = true
    · have hfirst : fillFrom answer ((p, a) :: rest) r = fillFrom answer rest r := by
        rw [fillFrom, if_pos hp]
      rw [hfirst]
      exact pass r hp
    · cases ha : answer a with
      | done value? =>
        cases value? with
        | some value =>
          have hfirst : fillFrom answer ((p, a) :: rest) r = fillFrom answer rest (r.put value p) := by
            simp only [fillFrom, hp, ha, Bool.false_eq_true, if_false]
          rw [hfirst]
          exact pass _ (by rw [at?_put, if_pos rfl]; rfl)
        | none =>
          have hfirst : ∀ q : Report, fillFrom answer ((p, a) :: rest) q = fillFrom answer rest q := by
            intro q
            simp only [fillFrom, ha, ite_self]
          rw [hfirst, hfirst]
          exact ih r
      | failed e =>
        have hfirst : fillFrom answer ((p, a) :: rest) r = (.failed e, r) := by
          simp only [fillFrom, hp, ha, Bool.false_eq_true, if_false]
        rw [hfirst, hfirst]
      | crashed =>
        have hfirst : fillFrom answer ((p, a) :: rest) r = (.crashed, r) := by
          simp only [fillFrom, hp, ha, Bool.false_eq_true, if_false]
        rw [hfirst, hfirst]

/-- To fill along reads that answer alike whenever they are made is to fill from their answers. -/
theorem fillAlong_eq_fillFrom {σ : Type} {read : Attribute → Action σ CallError (Option String)}
    {P : σ → Prop} (hread : ∀ a s, P s → ((read a).run s).1 = answer a ∧ P ((read a).run s).2) (s : σ)
    (hs : P s) :
    (fillAlong read plan r s).1 = (fillFrom answer plan r).1 ∧
      (fillAlong read plan r s).2.1 = (fillFrom answer plan r).2 := by
  induction plan generalizing r s with
  | nil => exact ⟨rfl, rfl⟩
  | cons step rest ih =>
    obtain ⟨p, a⟩ := step
    obtain ⟨ha, hnext⟩ := hread a s hs
    rw [fillAlong, fillFrom]
    split
    · exact ih r s hs
    · rw [← ha]
      rcases hr : (read a).run s with ⟨⟨_ | value⟩ | e | _, t⟩ <;> rw [hr] at hnext
      · exact ih r t hnext
      · exact ih (r.put value p) t hnext
      · exact ⟨rfl, rfl⟩
      · exact ⟨rfl, rfl⟩

end

end Report

/-! ## Fixed answers -/

/-- Whether what a backend does with a read depends on the attribute alone. -/
def Backend.ReadsFixed (b : Backend) : Prop :=
  ∀ history history' a, b.trouble history (.read a) = b.trouble history' (.read a)

namespace Session

/-- What a session answers to a read. -/
def answer (x : Session) (a : Attribute) : Outcome CallError (Option String) :=
  (x.troubleWith (.read a)).elim (.done (x.valueOf a)) Trouble.outcome

theorem run_read (x : Session) (a : Attribute) :
    (read a).run x = (x.answer a, x.note (.read a)) := by
  rw [read, Action.run_bind, run_attempt, answer]
  cases x.troubleWith (.read a) with
  | none => rcases a with f | t <;> rfl
  | some t => cases t <;> rfl

/-- Where reads are fixed, the calls that a session has seen do not change its answers. -/
theorem answer_of_core_eq {x y : Session} (h : y.core = x.core) (hx : x.backend.ReadsFixed)
    (a : Attribute) : y.answer a = x.answer a := by
  have hb : y.backend = x.backend := (congrArg Session.backend h :)
  have hs : y.stopped = x.stopped := (congrArg Session.stopped h :)
  have hv : y.valueOf a = x.valueOf a := (congrArg (fun z : Session => z.valueOf a) h :)
  rw [answer, answer, troubleWith, troubleWith, Backend.troubleWith, Backend.troubleWith, hb, hs, hv,
    hx y.history x.history a]

end Session

end SessionTrail

import SessionTrail.Proofs.Filling

/-!
# The reads of an enrichment

Whatever a session answers, and however its answers change from read to read, an enrichment asks for the
attributes of the places in which the report says nothing, in the order of the plan, up to the first read
that is not served. The report then says what it said before and what these reads have answered, and
nothing else. The enricher hands it on however the reading has ended.
-/
namespace SessionTrail

/-- A read that was made, and what came of it. -/
structure ReadMade where
  subject : Attribute
  answer : Outcome CallError (Option String)
deriving DecidableEq, Repr

/-- Attributes are read in order, up to the first that is not served: the reads that are made, and how
that ends. -/
inductive Asked : List Attribute → List ReadMade → Outcome CallError Unit → Prop where
  | nothing : Asked [] [] (.done ())
  | served {a : Attribute} {value? : Option String} {rest : List Attribute} {reads : List ReadMade}
      {outcome : Outcome CallError Unit} (h : Asked rest reads outcome) :
      Asked (a :: rest) (⟨a, .done value?⟩ :: reads) outcome
  | failed {a : Attribute} {e : CallError} {rest : List Attribute} :
      Asked (a :: rest) [⟨a, .failed e⟩] (.failed e)
  | crashed {a : Attribute} {rest : List Attribute} : Asked (a :: rest) [⟨a, .crashed⟩] .crashed

theorem Asked.mem {wanted : List Attribute} {reads : List ReadMade} {outcome : Outcome CallError Unit}
    (h : Asked wanted reads outcome) {q : ReadMade} (hq : q ∈ reads) : q.subject ∈ wanted := by
  induction h with
  | nothing => cases hq
  | served _ ih =>
    rcases List.mem_cons.mp hq with rfl | hq
    · exact List.mem_cons_self
    · exact List.mem_cons_of_mem _ (ih hq)
  | failed =>
    rw [List.mem_singleton.mp hq]
    exact List.mem_cons_self
  | crashed =>
    rw [List.mem_singleton.mp hq]
    exact List.mem_cons_self

namespace Report

/-- Reads of which each is written down, behind those that were made before it. -/
def watching {σ : Type} (read : Attribute → Action σ CallError (Option String)) :
    Attribute → Action (σ × List ReadMade) CallError (Option String) := fun a s =>
  let (answer, t) := (read a).run s.1
  (answer, t, s.2 ++ [⟨a, answer⟩])

/-- The steps of a plan whose places a report leaves empty. -/
def missing (r : Report) (plan : List (Place × Attribute)) : List (Place × Attribute) :=
  plan.filter fun step => (r.at? step.1).isNone

/-- What a report `r` has come to be when it was filled along a plan by some reads. -/
structure FilledBy (r : Report) (plan : List (Place × Attribute)) (reads : List ReadMade)
    (outcome : Outcome CallError Unit) (final : Report) : Prop where
  asked : Asked ((r.missing plan).map (·.2)) reads outcome
  /-- What the report said, it still says. -/
  kept : ∀ place value, r.at? place = some value → final.at? place = some value
  /-- Where it said nothing, it now says what a read has brought for the place, and nothing else. -/
  filled : ∀ place, r.at? place = none → ∀ value, final.at? place = some value ↔
    ∃ a, (place, a) ∈ plan ∧ ⟨a, .done (some value)⟩ ∈ reads
  /-- A user that gets no id stays as it is: absent, or present without an id. -/
  user : final.at? .userId = r.at? .userId → final.user = r.user
  eventId : final.eventId = r.eventId
  timestamp : final.timestamp = r.timestamp
  level : final.level = r.level
  message : final.message = r.message
  breadcrumbs : final.breadcrumbs = r.breadcrumbs

namespace FilledBy

variable {r final : Report} {place : Place} {a : Attribute} {rest : List (Place × Attribute)}
  {reads : List ReadMade} {outcome : Outcome CallError Unit}

/-- A report that no read has answered for is the report as it was. -/
theorem unfilled {plan : List (Place × Attribute)} (hasked : Asked ((r.missing plan).map (·.2)) reads outcome)
    (hnone : ∀ a value, ⟨a, .done (some value)⟩ ∉ reads) : r.FilledBy plan reads outcome r where
  asked := hasked
  kept _ _ h := h
  filled place h value := by
    rw [h]
    exact ⟨nofun, fun ⟨a, _, hm⟩ => absurd hm (hnone a value)⟩
  user _ := rfl
  eventId := rfl
  timestamp := rfl
  level := rfl
  message := rfl
  breadcrumbs := rfl

/-- A place in which something is said is passed over. -/
theorem skip (h : r.FilledBy rest reads outcome final) (hp : (r.at? place).isSome = true) :
    r.FilledBy ((place, a) :: rest) reads outcome final where
  asked := by
    have hskip : r.missing ((place, a) :: rest) = r.missing rest := by
      rw [missing, List.filter_cons_of_neg (by rw [← Option.not_isSome, hp]; simp)]
      rfl
    rw [hskip]
    exact h.asked
  kept := h.kept
  filled other hother value := by
    have hne : other ≠ place := by
      rintro rfl
      rw [hother] at hp
      cases hp
    rw [h.filled other hother value]
    simp only [List.mem_cons, Prod.mk.injEq, hne, false_and, false_or]
  user := h.user
  eventId := h.eventId
  timestamp := h.timestamp
  level := h.level
  message := h.message
  breadcrumbs := h.breadcrumbs

/-- The attribute of an empty place is the first to be asked for. -/
theorem asked_cons (hp : r.at? place = none) :
    (r.missing ((place, a) :: rest)).map (·.2) = a :: (r.missing rest).map (·.2) := by
  rw [missing, List.filter_cons_of_pos (by rw [hp]; rfl), List.map_cons]
  rfl

/-- No attribute is asked for that the plan does not have. -/
theorem not_read (h : r.FilledBy rest reads outcome final) (ha : a ∉ rest.map (·.2))
    (answer : Outcome CallError (Option String)) : ⟨a, answer⟩ ∉ reads := fun hm => by
  obtain ⟨step, hstep, he⟩ := List.mem_map.mp (h.asked.mem hm)
  exact ha (List.mem_map.mpr ⟨step, (List.mem_filter.mp hstep).1, he⟩)

/-- An attribute that the session does not have leaves its place empty. -/
theorem unset (h : r.FilledBy rest reads outcome final) (hp : r.at? place = none)
    (ha : a ∉ rest.map (·.2)) :
    r.FilledBy ((place, a) :: rest) (⟨a, .done none⟩ :: reads) outcome final where
  asked := by
    rw [asked_cons hp]
    exact h.asked.served
  kept := h.kept
  filled other hother value := by
    rw [h.filled other hother value]
    constructor
    · rintro ⟨b, hb, hm⟩
      exact ⟨b, List.mem_cons_of_mem _ hb, List.mem_cons_of_mem _ hm⟩
    · rintro ⟨b, hb, hm⟩
      have hm : ⟨b, .done (some value)⟩ ∈ reads := (List.mem_cons.mp hm).resolve_left nofun
      refine ⟨b, (List.mem_cons.mp hb).resolve_left fun he => ?_, hm⟩
      cases he
      exact h.not_read ha _ hm
  user := h.user
  eventId := h.eventId
  timestamp := h.timestamp
  level := h.level
  message := h.message
  breadcrumbs := h.breadcrumbs

/-- An attribute that the session has is said in its place. -/
theorem put {value : String} (h : (r.put value place).FilledBy rest reads outcome final)
    (hp : r.at? place = none) (hplace : place ∉ rest.map (·.1)) (ha : a ∉ rest.map (·.2)) :
    r.FilledBy ((place, a) :: rest) (⟨a, .done (some value)⟩ :: reads) outcome final where
  asked := by
    -- What is put in the place changes nothing of what is asked for behind it.
    have hsame : (r.put value place).missing rest = r.missing rest := by
      refine List.filter_congr fun step hstep => ?_
      rw [at?_put, if_neg]
      rintro rfl
      exact hplace (List.mem_map_of_mem hstep)
    rw [asked_cons hp, ← hsame]
    exact h.asked.served
  kept other said hother := by
    refine h.kept other said ?_
    rw [at?_put, if_neg, hother]
    rintro rfl
    rw [hp] at hother
    cases hother
  filled other hother said := by
    by_cases hne : other = place
    · subst hne
      have hfinal : final.at? other = some value := h.kept _ _ (by rw [at?_put, if_pos rfl])
      rw [hfinal]
      constructor
      · intro he
        cases he
        exact ⟨a, List.mem_cons_self, List.mem_cons_self⟩
      · rintro ⟨b, hb, hm⟩
        obtain rfl : b = a := by
          rcases List.mem_cons.mp hb with he | hb
          · exact congrArg Prod.snd he
          · exact absurd (List.mem_map_of_mem hb) hplace
        rcases List.mem_cons.mp hm with he | hm
        · cases he
          rfl
        · exact absurd hm (h.not_read ha _)
    · rw [h.filled other (by rw [at?_put, if_neg hne, hother]) said]
      constructor
      · rintro ⟨b, hb, hm⟩
        exact ⟨b, List.mem_cons_of_mem _ hb, List.mem_cons_of_mem _ hm⟩
      · rintro ⟨b, hb, hm⟩
        have hb : (other, b) ∈ rest :=
          (List.mem_cons.mp hb).resolve_left fun he => hne (congrArg Prod.fst he)
        refine ⟨b, hb, (List.mem_cons.mp hm).resolve_left fun he => ?_⟩
        cases he
        exact ha (List.mem_map_of_mem hb)
  user he := by
    by_cases hne : place = .userId
    · subst hne
      rw [h.kept .userId value (by rw [at?_put, if_pos rfl]), hp] at he
      cases he
    · have hput : (r.put value place).at? .userId = r.at? .userId := by
        rw [at?_put, if_neg (Ne.symm hne)]
      have huser : (r.put value place).user = r.user := by
        cases place with
        | userId => exact absurd rfl hne
        | tag _ => rfl
        | extra _ => rfl
      rw [h.user (he.trans hput.symm), huser]
  eventId := h.eventId.trans (r.eventId_put value place)
  timestamp := h.timestamp.trans (by cases place <;> rfl)
  level := h.level.trans (by cases place <;> rfl)
  message := h.message.trans (by cases place <;> rfl)
  breadcrumbs := h.breadcrumbs.trans (by cases place <;> rfl)

end FilledBy

/-- Along a plan that has each place and each attribute once, whatever the reads answer. -/
theorem filledBy_fillAlong {σ : Type} (read : Attribute → Action σ CallError (Option String))
    {plan : List (Place × Attribute)} (hplaces : (plan.map (·.1)).Nodup)
    (hattributes : (plan.map (·.2)).Nodup) (r : Report) (s : σ) (before : List ReadMade) :
    ∃ reads outcome final t,
      fillAlong (watching read) plan r (s, before) = (outcome, final, t, before ++ reads) ∧
      fillAlong read plan r s = (outcome, final, t) ∧
      t = reads.foldl (fun s q => ((read q.subject).run s).2) s ∧
      r.FilledBy plan reads outcome final := by
  induction plan generalizing r s before with
  | nil =>
    refine ⟨[], .done (), r, s, ?_, rfl, rfl, .unfilled .nothing fun _ _ hm => absurd hm List.not_mem_nil⟩
    rw [List.append_nil]
    rfl
  | cons step rest ih =>
    obtain ⟨place, a⟩ := step
    rw [List.map_cons, List.nodup_cons] at hplaces hattributes
    have ih := ih hplaces.2 hattributes.2
    rw [fillAlong, fillAlong]
    by_cases hp : (r.at? place).isSome = true
    · rw [if_pos hp, if_pos hp]
      obtain ⟨reads, outcome, final, t, hw, hr, ht, hf⟩ := ih r s before
      exact ⟨reads, outcome, final, t, hw, hr, ht, hf.skip hp⟩
    · rw [if_neg hp, if_neg hp]
      rw [Option.not_isSome_iff_eq_none] at hp
      have hwatch : (watching read a).run (s, before) =
          (((read a).run s).1, ((read a).run s).2, before ++ [⟨a, ((read a).run s).1⟩]) := rfl
      rw [hwatch]
      rcases ha : (read a).run s with ⟨⟨_ | value⟩ | e | _, u⟩
      · obtain ⟨reads, outcome, final, t, hw, hr, ht, hf⟩ := ih r u (before ++ [⟨a, .done none⟩])
        refine ⟨⟨a, .done none⟩ :: reads, outcome, final, t, ?_, hr, ?_, hf.unset hp hattributes.1⟩
        · rw [List.append_assoc] at hw
          exact hw
        · rw [List.foldl_cons, ha]
          exact ht
      · obtain ⟨reads, outcome, final, t, hw, hr, ht, hf⟩ :=
          ih (r.put value place) u (before ++ [⟨a, .done (some value)⟩])
        refine ⟨⟨a, .done (some value)⟩ :: reads, outcome, final, t, ?_, hr, ?_,
          hf.put hp hplaces.1 hattributes.1⟩
        · rw [List.append_assoc] at hw
          exact hw
        · rw [List.foldl_cons, ha]
          exact ht
      · refine ⟨[⟨a, .failed e⟩], .failed e, r, u, rfl, rfl, ?_, .unfilled ?_ ?_⟩
        · rw [List.foldl_cons, List.foldl_nil, ha]
        · rw [FilledBy.asked_cons hp]
          exact .failed
        · exact fun _ _ hm => by cases List.mem_singleton.mp hm
      · refine ⟨[⟨a, .crashed⟩], .crashed, r, u, rfl, rfl, ?_, .unfilled ?_ ?_⟩
        · rw [List.foldl_cons, List.foldl_nil, ha]
        · rw [FilledBy.asked_cons hp]
          exact .crashed
        · exact fun _ _ hm => by cases List.mem_singleton.mp hm

/-- Along the enrichment plan, whatever the reads answer. -/
theorem filledBy_fillByPlan {σ : Type} (read : Attribute → Action σ CallError (Option String))
    (r : Report) (s : σ) :
    ∃ reads outcome final t, r.fillByPlan (watching read) (s, []) = (outcome, final, t, reads) ∧
      r.fillByPlan read s = (outcome, final, t) ∧
      t = reads.foldl (fun s q => ((read q.subject).run s).2) s ∧
      r.FilledBy enrichmentPlan reads outcome final :=
  filledBy_fillAlong read (by decide) (by decide) r s []

end Report

/-! ## The reads of an enricher -/

namespace Session

/-- A session that has seen some reads. -/
def afterReads (x : Session) (reads : List ReadMade) : Session :=
  { x with
    history := x.history ++ reads.map fun q => .read q.subject
    log := x.log ++ reads.map fun q => .read q.subject }

theorem afterReads_nil (x : Session) : x.afterReads [] = x := by
  simp only [afterReads, List.map_nil, List.append_nil]

theorem afterReads_cons (x : Session) (q : ReadMade) (reads : List ReadMade) :
    (x.note (.read q.subject)).afterReads reads = x.afterReads (q :: reads) := by
  simp only [afterReads, note, List.map_cons, List.append_assoc, List.cons_append, List.nil_append]

end Session

namespace Program

theorem run_onSession_read (id : SessionId) (a : Attribute) (s : Program) :
    ((onSession id (Session.read a)).run s).2 = s.modifySession id (·.note (.read a)) := by
  cases hx : s.session? id with
  | none =>
    rw [run_onSession_of_none hx]
    change s.sessions.get? id = none at hx
    simp only [modifySession, Table.modify, hx]
  | some x =>
    rw [run_onSession hx, Session.run_read]
    change s.sessions.get? id = some x at hx
    simp only [modifySession, Table.modify, hx]

/-- Of all that a program has, reads change only what their session has seen. -/
theorem foldl_onSession_read (id : SessionId) (reads : List ReadMade) (s : Program) :
    reads.foldl (fun s q => ((onSession id (Session.read q.subject)).run s).2) s =
      s.modifySession id (·.afterReads reads) := by
  induction reads generalizing s with
  | nil =>
    rw [List.foldl_nil]
    cases hx : s.sessions.get? id with
    | none => simp only [modifySession, Table.modify, hx]
    | some x => rw [modifySession, Table.modify_of_get? hx x.afterReads_nil]
  | cons q rest ih =>
    rw [List.foldl_cons, run_onSession_read, ih]
    simp only [modifySession, Table.modify_modify, Session.afterReads_cons]

end Program

/-- The plan goes from the user over the tags to the address of the engine's own pages. Whatever a session
answers, a report is filled by reading what it lacks in the order of the plan, up to the first read that is
not served, whose error or crash is how the filling ends. All that a read has brought is in the report, all
that was there before still is, and there is nothing else. An enricher hands on that report however the
filling has ended; without a session to read from it hands on the report as it is and reads nothing. -/
theorem enrichment_reads_what_is_missing :
    enrichmentPlan =
      [(.userId, .fact .user), (.tag "executor.id", .setting (.conf "spark.executor.id")),
        (.tag "spark-submit.deployMode", .setting (.conf "spark.submit.deployMode")),
        (.tag "driver.host", .setting (.conf "spark.driver.host")),
        (.tag "driver.port", .setting (.conf "spark.driver.port")), (.tag "spark_version", .fact .version),
        (.tag "app_name", .fact .appName), (.tag "application_id", .fact .applicationId),
        (.tag "master", .fact .master), (.tag "spark_home", .setting .home),
        (.extra "web_url", .setting .webUrl)] ∧
    (∀ (σ : Type) (read : Attribute → Action σ CallError (Option String)) (r : Report) (s : σ),
      ∃ reads outcome final t,
        r.fillByPlan (Report.watching read) (s, []) = (outcome, final, t, reads) ∧
        r.fillByPlan read s = (outcome, final, t) ∧ r.FilledBy enrichmentPlan reads outcome final) ∧
    ∀ (hint : Hint) (e : Enricher) (r : Report) (s : Program),
      if s.isTarget e then
        ∃ reads outcome final,
          r.fillByPlan (Report.watching fun a => Program.onSession e.session (Session.read a)) (s, []) =
            (outcome, final, s.modifySession e.session (·.afterReads reads), reads) ∧
          r.FilledBy enrichmentPlan reads outcome final ∧
          Program.runProcessor hint (.enricher e) r s =
            (some final, s.modifySession e.session (·.afterReads reads))
      else Program.runProcessor hint (.enricher e) r s = (some r, s) := by
  refine ⟨rfl, ?_, ?_⟩
  · intro σ read r s
    obtain ⟨reads, outcome, final, t, hw, hr, _, hf⟩ := Report.filledBy_fillByPlan read r s
    exact ⟨reads, outcome, final, t, hw, hr, hf⟩
  · intro hint e r s
    split
    · rename_i he
      obtain ⟨reads, outcome, final, t, hw, hr, ht, hf⟩ := Report.filledBy_fillByPlan
        (fun a => Program.onSession e.session (Session.read a)) r s
      rw [Program.foldl_onSession_read] at ht
      subst ht
      have hfill : Program.fillReport e.session r s =
          (outcome, final, s.modifySession e.session (·.afterReads reads)) := hr
      refine ⟨reads, outcome, final, hw, hf, ?_⟩
      simp only [Program.runProcessor, Program.runEnricher, he, if_true, hfill]
    · rename_i he
      simp only [Program.runProcessor, Program.runEnricher, he, Bool.false_eq_true, if_false]

/-- A session that stops behind its third read, and has no deploy mode. -/
def fadingRead : Attribute → Action Nat CallError (Option String) := fun a n =>
  if n = 3 then (.failed .stopped, n)
  else (.done (if a = .setting (.conf "spark.submit.deployMode") then none else some "here"), n + 1)

/-- A report with a user who has no id, and a tag of the plan. -/
def Report.half : Report :=
  { Report.new ⟨7⟩ .epoch .error with
    user := some ⟨none⟩
    tags := SortedMap.empty.insert "executor.id" "mine" }

/-- The user gets an id, the tag that is set is not asked for, and the fourth read ends it. -/
theorem half_is_filled_up_to_the_stop :
    let seen := Report.half.fillByPlan (Report.watching fadingRead) (0, [])
    seen.1 = .failed .stopped ∧
    seen.2.2.2.map (·.subject) = [.fact .user, .setting (.conf "spark.submit.deployMode"),
      .setting (.conf "spark.driver.host"), .setting (.conf "spark.driver.port")] ∧
    seen.2.1.at? .userId = some "here" ∧ seen.2.1.at? (.tag "executor.id") = some "mine" ∧
    seen.2.1.at? (.tag "driver.host") = some "here" ∧ seen.2.1.eventId = ⟨7⟩ ∧
    seen.2.1.tags.entries = [("driver.host", "here"), ("executor.id", "mine")] := by
  intro seen
  obtain ⟨hplan, hfill, -⟩ := enrichment_reads_what_is_missing
  obtain ⟨reads, outcome, final, t, hw, -, hf⟩ := hfill Nat fadingRead .half 0
  have hreads : reads = [⟨.fact .user, .done (some "here")⟩,
      ⟨.setting (.conf "spark.submit.deployMode"), .done none⟩,
      ⟨.setting (.conf "spark.driver.host"), .done (some "here")⟩,
      ⟨.setting (.conf "spark.driver.port"), .failed .stopped⟩] :=
    (congrArg (fun result => result.2.2.2) hw).symm.trans (by decide)
  have huser : final.at? .userId = some "here" :=
    (hf.filled .userId rfl "here").mpr ⟨.fact .user, hplan ▸ by simp, hreads ▸ by simp⟩
  have htag : final.at? (.tag "executor.id") = some "mine" := hf.kept _ _ (by decide)
  have hhost : final.at? (.tag "driver.host") = some "here" :=
    (hf.filled (.tag "driver.host") (by decide) "here").mpr
      ⟨.setting (.conf "spark.driver.host"), hplan ▸ by simp, hreads ▸ by simp⟩
  have hseen : seen = (outcome, final, t, reads) := hw
  refine ⟨by decide, ?_, ?_, ?_, ?_, ?_, by decide⟩ <;> rw [hseen]
  · rw [hreads]
    rfl
  · exact huser
  · exact htag
  · exact hhost
  · exact hf.eventId

end SessionTrail

import SessionTrail.Proofs.EventText
import SessionTrail.Proofs.ReportText
import SessionTrail.Proofs.Spelling

/-!
# Spellings of an event

An event may be spelled in many ways: the members of its object stand in any order, other members stand
among them, a part that is empty is left out, an array takes the place of the object, and blanks stand
between the parts of the text. Each of them is read like the event's own text (`spellings_decode_alike`).
-/
namespace SessionTrail

open Json Doc

namespace Json

variable {α : Type} {decode : Decoder α} {default a : α} {f : Field} {shape : List Field}
  {slots : List (String × Option Value)}

theorem Shaped.cons {v : Value} (h : decode (ofValue v) = .ok a) (haccepts : f.accepts = Field.test decode)
    (hrest : Shaped shape slots) : Shaped (f :: shape) ((f.name, some v) :: slots) :=
  .full (by rw [haccepts, Field.test, h, ok_map]) hrest

theorem Answers.cons {v? : Option Value} (h : Answers decode default a v?)
    (haccepts : f.accepts = Field.test decode)
    (hpresence : f.presence = .defaulted ∨ (f.presence = .nullable ∧ ∃ s ∈ slots, s.2.isSome = true))
    (hrest : Shaped shape slots) : Shaped (f :: shape) ((f.name, v?) :: slots) := by
  cases v? with
  | none => exact .empty hpresence hrest
  | some v => exact .cons h haccepts hrest

end Json

theorem OptionalPart.answers {α : Type} {decode : Decoder α} {default a : α} {isEmpty : Prop}
    {IsForm : Value → Prop} {v? : Option Value} (h : OptionalPart isEmpty IsForm v?)
    (hempty : isEmpty → a = default) (hform : ∀ v, IsForm v → decode (ofValue v) = .ok a) :
    Answers decode default a v? := by
  rcases h with ⟨he, rfl⟩ | ⟨v, rfl, hv⟩
  · exact hempty he
  · exact hform v hv

theorem answers_option {o : Option String} {part : Option Value}
    (h : OptionalPart (o = none) (· = .ofOption .string o) part) :
    Answers (decodeOption decodeString) none o part :=
  h.answers (fun h => h) fun _ h => h ▸ reads_string.option nofun o

/-! ## Attempts and outcomes -/

namespace StageAttempt

def slots (attempt : StageAttempt) (reason : Option Value) : List (String × Option Value) :=
  [("stage_id", some attempt.stage.encode), ("attempt_id", some (.ofUInt32 attempt.attempt)),
    ("name", some (.string attempt.name)), ("failure_reason", reason)]

/-- The forms of an attempt: a failure reason that is unset may be left out. -/
def IsForm (attempt : StageAttempt) (v : Value) : Prop :=
  ∃ reason, OptionalPart (attempt.failureReason = .unset) (· = attempt.failureReason.encode .string) reason ∧
    IsRecord (attempt.slots reason) v

theorem decode_form {attempt : StageAttempt} {v : Value} (h : attempt.IsForm v) (reading : Reading) :
    decode reading (ofValue v) = .ok attempt := by
  obtain ⟨reason, hreason, hv⟩ := h
  have hstage := StageId.reads attempt.stage
  have hattempt := reads_UInt32 attempt.attempt
  have hname := reads_string attempt.name
  have hreason : Answers (Remote.decode reading decodeString) .unset attempt.failureReason reason :=
    hreason.answers (fun h => h) fun _ h => h ▸ Remote.reads reads_string reading attempt.failureReason
  have hshaped : Shaped (shape reading) (attempt.slots reason) :=
    .cons hstage rfl (.cons hattempt rfl (.cons hname rfl (hreason.cons rfl (.inl rfl) .nil)))
  obtain ⟨fields, hfields, hfound⟩ := decodeFields_record hshaped (by simp [slots]) hv reading
  simp only [slots, List.forall_mem_cons] at hfound
  obtain ⟨hstage', hattempt', hname', hreason', -⟩ := hfound
  rw [decode, hfields, ok_bind, get_found hstage' hstage, ok_bind, get_found hattempt' hattempt, ok_bind,
    get_found hname' hname, ok_bind, getD_found hreason' hreason]
  rfl

end StageAttempt

namespace JobOutcome

/-- The forms of an outcome: a reason that is not known may be left out. -/
def IsForm : JobOutcome → Value → Prop
  | .succeeded, v => v = .string "succeeded"
  | .failed reason, v => ∃ part content, OptionalPart (reason = none) (· = .ofOption .string reason) part ∧
      IsRecord [("reason", part)] content ∧ v = .object [("failed", content)]

theorem decode_form {outcome : JobOutcome} {v : Value} (h : outcome.IsForm v) (reading : Reading) :
    decode reading (ofValue v) = .ok outcome := by
  cases outcome with
  | succeeded =>
    cases h
    exact JobOutcome.reads reading .succeeded
  | failed reason =>
    obtain ⟨part, content, hpart, hcontent, rfl⟩ := h
    have hpart := answers_option hpart
    have hshaped : Shaped failureShape [("reason", part)] := hpart.cons rfl (.inl rfl) .nil
    obtain ⟨fields, hfields, hfound⟩ := decodeFields_record hshaped (by simp) hcontent reading
    have hfailure : decodeFailure reading (ofValue content) = .ok (.failed reason) := by
      rw [decodeFailure, hfields, ok_bind, getD_found (hfound _ List.mem_cons_self) hpart]
      rfl
    rw [decode, decodeVariant_content]
    simp [decodeNamed, names, decodeContent, hfailure]

end JobOutcome

namespace Event

/-- The slots in which the fields of an event may stand. A part that is empty may be left out, and the
members of properties and of a payload may stand in any order. -/
def IsSlots : Event → List (String × Option Value) → Prop
  | .applicationStart appName appId time user, slots =>
    ∃ part, OptionalPart (appId = none) (· = .ofOption .string appId) part ∧
      slots = [("app_name", some (.string appName)), ("app_id", part), ("time", some time.encode),
        ("spark_user", some (.string user))]
  | .environmentUpdate properties, slots =>
    ∃ entries, SortedMap.ofList entries = properties ∧
      slots = [("properties", some (.object (entries.map fun e => (e.1, .string e.2))))]
  | .jobEnd job time outcome, slots =>
    ∃ v, outcome.IsForm v ∧
      slots = [("job_id", some job.encode), ("time", some time.encode), ("job_result", some v)]
  | .other kind payload, slots =>
    ∃ part, OptionalPart (payload = .of .null) (CanonicalValue.of · = payload) part ∧
      slots = [("kind", some (.string kind)), ("payload", part)]
  | .stageSubmitted attempt, slots | .stageCompleted attempt, slots =>
    ∃ v, attempt.IsForm v ∧ slots = [("stage_info", some v)]
  | e, slots => slots = slotsOf e.members

/-- The values as which an event may be written. -/
def IsSpelling (e : Event) (v : Value) : Prop :=
  ∃ slots, e.IsSlots slots ∧ IsRecord (("type", some (.string e.kind.tag)) :: slots) v

variable {e : Event} {slots : List (String × Option Value)}

theorem decodeEntries_strings (entries : List (String × String)) (m : SortedMap String) :
    decodeEntries decodeString none m (ofMembers (entries.map fun e => (e.1, .string e.2))) =
      .ok (entries.foldl (fun m e => m.insert e.1 e.2) m) := by
  induction entries generalizing m with
  | nil => rfl
  | cons entry rest ih =>
    rw [List.map_cons, ofMembers, decodeEntries, reads_string, ok_bind, ih, List.foldl_cons]

/-- Properties are read in any order. -/
theorem decodeMap_strings (entries : List (String × String)) :
    decodeMap decodeString (ofValue (.object (entries.map fun e => (e.1, .string e.2)))) =
      .ok (.ofList entries) := decodeEntries_strings entries .empty

theorem answers_payload {payload : CanonicalValue} {part : Option Value}
    (h : OptionalPart (payload = .of .null) (CanonicalValue.of · = payload) part) :
    Answers decodePayload (.of .null) payload part :=
  h.answers (fun h => h) fun v h => by rw [decodePayload, toValue_ofValue, h]

theorem shaped_slots (h : e.IsSlots slots) : Shaped (shape e.kind) slots := by
  -- Six kinds have a part with several forms; the slots of every other kind are those of its members.
  cases e with
  | applicationStart appName appId time user =>
    obtain ⟨part, hpart, rfl⟩ := h
    exact .cons (reads_string appName) rfl ((answers_option hpart).cons rfl
      (.inr ⟨rfl, _, List.mem_cons_self, rfl⟩)
      (.cons time.decode_encode rfl (.cons (reads_string user) rfl .nil)))
  | environmentUpdate properties =>
    obtain ⟨entries, rfl, rfl⟩ := h
    exact .cons (decodeMap_strings entries) rfl .nil
  | jobEnd job time outcome =>
    obtain ⟨v, hv, rfl⟩ := h
    exact .cons (JobId.reads job) rfl (.cons time.decode_encode rfl
      (.cons (JobOutcome.decode_form hv .buffered) rfl .nil))
  | other kind payload =>
    obtain ⟨part, hpart, rfl⟩ := h
    exact .cons (reads_string kind) rfl ((answers_payload hpart).cons rfl (.inl rfl) .nil)
  | stageSubmitted attempt | stageCompleted attempt =>
    obtain ⟨v, hv, rfl⟩ := h
    exact .cons (StageAttempt.decode_form hv .buffered) rfl .nil
  | _ =>
    obtain rfl : slots = _ := h
    exact .of_members (names_members _) (nodup_names _) (takes_members _)

/-- Fields that are found alike give one event. -/
theorem ofFields_congr {fields more : Fields} (kind : EventKind)
    (h : ∀ f ∈ shape kind, fields.find? f.name = more.find? f.name) :
    ofFields fields kind = ofFields more kind := by
  cases kind <;>
    simp only [shape, List.forall_mem_cons, Field.required, Field.nullable, Field.defaulted] at h <;>
    simp only [ofFields, Fields.get, Fields.getD, h]

theorem ofFields_of_members {fields : Fields} (e : Event)
    (hfound : ∀ m ∈ e.members, fields.find? m.1 = some (ofValue m.2)) :
    ofFields fields e.kind = .ok e.reread := by
  have hnames := (Fields.names_ofMembers e.members).trans e.names_members
  refine (ofFields_congr e.kind fun f hf => ?_).trans (ofFields_members e)
  have hname : f.name ∈ e.members.map (·.1) := e.names_members ▸ List.mem_map_of_mem hf
  obtain ⟨m, hm, hname⟩ := List.mem_map.mp hname
  have hwritten := (Fields.find?_eq_some_iff (hnames ▸ nodup_names e.kind)).mpr
    (List.mem_map_of_mem (f := fun m => (m.1, ofValue m.2)) hm)
  rw [← hname, hfound m hm]
  exact hwritten.symm

theorem ofFields_slots (h : e.IsSlots slots) {fields : Fields}
    (hfound : ∀ s ∈ slots, fields.find? s.1 = s.2.map ofValue) : ofFields fields e.kind = .ok e.reread := by
  cases e with
  | applicationStart appName appId time user =>
    obtain ⟨part, hpart, rfl⟩ := h
    simp only [List.forall_mem_cons] at hfound
    obtain ⟨hname, hid, htime, huser, -⟩ := hfound
    rw [kind, ofFields, get_found hname (reads_string appName), ok_bind,
      getD_found hid (answers_option hpart), ok_bind, get_found htime time.decode_encode, ok_bind,
      get_found huser (reads_string user), ok_bind]
    rfl
  | environmentUpdate properties =>
    obtain ⟨entries, rfl, rfl⟩ := h
    rw [kind, ofFields, get_found (hfound _ List.mem_cons_self) (decodeMap_strings entries), ok_bind]
    rfl
  | jobEnd job time outcome =>
    obtain ⟨v, hv, rfl⟩ := h
    simp only [List.forall_mem_cons] at hfound
    obtain ⟨hjob, htime, houtcome, -⟩ := hfound
    rw [kind, ofFields, get_found hjob (JobId.reads job), ok_bind, get_found htime time.decode_encode,
      ok_bind, get_found houtcome (JobOutcome.decode_form hv .buffered), ok_bind]
    rfl
  | other kind payload =>
    obtain ⟨part, hpart, rfl⟩ := h
    simp only [List.forall_mem_cons] at hfound
    obtain ⟨hkind, hpayload, -⟩ := hfound
    rw [Event.kind, ofFields, get_found hkind (reads_string kind), ok_bind,
      getD_found hpayload (answers_payload hpart), ok_bind]
    rfl
  | stageSubmitted attempt | stageCompleted attempt =>
    obtain ⟨v, hv, rfl⟩ := h
    rw [kind, ofFields, decodeAttempt,
      get_found (hfound _ List.mem_cons_self) (StageAttempt.decode_form hv .buffered), ok_bind]
    rfl
  | _ =>
    obtain rfl : slots = _ := h
    exact ofFields_of_members _ (List.forall_mem_map.mp hfound)

/-- An event is read from each of its spellings, but for its leap second. -/
theorem decode_spelling {v : Value} (h : e.IsSpelling v) (hdepth : v.depth ≤ maxDepth) :
    decode (ofValue v) = .ok e.reread := by
  obtain ⟨slots, hslots, hv⟩ := h
  have hshaped := shaped_slots hslots
  have hname : e.kind.tag ∈ EventKind.all.map EventKind.tag := List.mem_map_of_mem e.kind.mem_all
  have htag : "type" ∉ slots.map (·.1) := hshaped.names ▸ tag_not_among e.kind
  obtain ⟨body, hbody, hrecord⟩ := decodeTagged_record hname htag hv hdepth
  obtain ⟨fields, hfields, hfound⟩ :=
    decodeFields_record hshaped (hshaped.names ▸ nodup_names e.kind) hrecord .buffered
  rw [decode, hbody, ok_bind]
  simp only [EventKind.ofTag?_tag]
  rw [hfields, ok_bind, ofFields_slots hslots hfound]

/-! ## The spellings of each event -/

/-- The values of an event as it is written stand in its slots. -/
theorem isSlots_members (e : Event) : e.IsSlots (slotsOf e.members) := by
  cases e with
  | applicationStart appName appId time user => exact ⟨_, .inr ⟨_, rfl, rfl⟩, rfl⟩
  | environmentUpdate properties =>
    have hentries := decodeMap_strings properties.entries
    rw [show Value.object _ = .ofMap .string properties from rfl, reads_string.map properties] at hentries
    exact ⟨properties.entries, (Except.ok.inj hentries).symm, rfl⟩
  | jobEnd job time outcome =>
    refine ⟨_, ?_, rfl⟩
    cases outcome with
    | succeeded => rfl
    | failed reason => exact ⟨_, _, .inr ⟨_, rfl, rfl⟩, isRecord_written [("reason", some _)], rfl⟩
  | other kind payload => exact ⟨_, .inr ⟨_, rfl, payload.of_value⟩, rfl⟩
  | stageSubmitted attempt | stageCompleted attempt =>
    exact ⟨_, ⟨_, .inr ⟨_, rfl, rfl⟩, isRecord_written (attempt.slots (some _))⟩, rfl⟩
  | _ => rfl

/-- The members of an event may stand in any order, with others among them. -/
theorem isSpelling_object (e : Event) {members others : List (String × Value)}
    (hperm : members.Perm (("type", .string e.kind.tag) :: e.members ++ others))
    (hothers : ∀ m ∈ others, m.1 ≠ "type" ∧ m.1 ∉ e.members.map (·.1)) : e.IsSpelling (.object members) := by
  refine ⟨_, isSlots_members e, @IsRecord.object _ _ others (fun m hm => ?_) ?_⟩
  · rw [List.map_cons, names_slotsOf, List.mem_cons]
    exact not_or.mpr (hothers m hm)
  · have hwritten := written_slotsOf (("type", .string e.kind.tag) :: e.members)
    exact hwritten.symm ▸ hperm

theorem isSpelling_array (e : Event) : e.IsSpelling (.array (.string e.kind.tag :: e.members.map (·.2))) :=
  ⟨_, isSlots_members e, .array (n := 0) (by simp [slotsOf])⟩

/-- All texts that spell the values as which an event may be written are read as one event, and are written
alike again, as the event is. What they are read as is the event itself, unless it tells of a leap second in
the midst of a minute. The members of the object may stand in any order and have others among them, the array
of the tag and the fields takes the place of the object, and blanks between the parts of a compact text
change nothing. -/
theorem spellings_decode_alike :
    (∀ (e : Event) (v : Value) (text : String), e.IsSpelling v → v.depth ≤ 127 → Spells text v →
      decodeText (fun _ => decode) text = .ok e.reread ∧
        (decodeText (fun _ => decode) text).map (fun e => e.encode.text) = .ok e.encode.text) ∧
    (∀ e : Event, e.reread = e ↔ ∀ t ∈ e.time?, t.IsRegular) ∧
    (∀ (e : Event) (members others : List (String × Value)),
      members.Perm (("type", .string e.kind.tag) :: e.members ++ others) →
      (∀ m ∈ others, m.1 ≠ "type" ∧ m.1 ∉ e.members.map (·.1)) → e.IsSpelling (.object members)) ∧
    (∀ e : Event, e.IsSpelling (.array (.string e.kind.tag :: e.members.map (·.2)))) ∧
    ∀ (v : Value) (r : Rendering) (before after : List Blank), v.IsReadBack → r.squeezed.chars = v.chars →
      Spells (String.ofList (gap before ++ r.chars ++ gap after)) v := by
  refine ⟨fun e v text hv hdepth htext => ?_, fun e => reread_eq_self,
    fun e _ _ hperm hothers => isSpelling_object e hperm hothers, isSpelling_array,
    fun v r before after h hr => spells_of_squeezed h hr before after⟩
  have hread : decodeText (fun _ => decode) text = .ok e.reread := by
    rw [decodeText_of_spells _ htext, decode_spelling hv hdepth]
  exact ⟨hread, by rw [hread, ok_map, encode_reread]⟩

/-- Nothing but arrays, one in the other. -/
def nested : Nat → Value
  | 0 => .array []
  | n + 1 => .array [nested n]

theorem isCanonical_nested (n : Nat) : (nested n).isCanonical = true := by
  induction n with
  | zero => rfl
  | succ n ih => simp [nested, Value.isCanonical, Value.isCanonicalItems, ih]

theorem isIntegral_nested (n : Nat) : (nested n).isIntegral = true := by
  induction n with
  | zero => rfl
  | succ n ih => simp [nested, Value.isIntegral, Value.isIntegralItems, ih]

theorem depth_nested (n : Nat) : (nested n).depth = n + 1 := by
  induction n with
  | zero => rfl
  | succ n ih => simp [nested, Value.depth, Value.depthItems, ih]

/-- An event whose payload is nested one level deeper than a reader goes. -/
def buried : Event := .other "k" ⟨nested 126, isCanonical_nested 126⟩

/-- An event whose payload is a real number that is read back as its neighbour. -/
def rounded : Event := .other "k" ⟨.number (.real ⟨false, 6867165051218750, -54⟩), rfl⟩

/-- The text of an event with one more member. -/
def burdenedText (member : String) : String :=
  "\x7b\"type\":\"node_unblacklisted\",\"host\":\"h\",\"load\":" ++ member ++ "\x7d"

/-- Not every text is read as the event that it is meant for, an event's own text included: a payload may be
nested too deep, a real number may be rounded, a leap second may be taken for the second that follows, and a
number beyond every real number and half of a surrogate pair are refused, whatever the name of their member. -/
theorem texts_that_are_not_read_alike :
    decodeText (fun _ => decode) buried.encode.text ≠ .ok buried ∧
      decodeText (fun _ => decode) rounded.encode.text ≠ .ok rounded ∧
      decodeText (fun _ => decode) straying.encode.text ≠ .ok straying ∧
      decodeText (fun _ => decode) (burdenedText "1e400") ≠ .ok (.nodeUnblacklisted "h") ∧
      decodeText (fun _ => decode) (burdenedText "\"\\ud800\"") ≠ .ok (.nodeUnblacklisted "h") := by
  have differ : ∀ {text : String} {e : Event}, (decodeText (fun _ => decode) text).toOption ≠ some e →
      decodeText (fun _ => decode) text ≠ .ok e := fun hne h => hne (congrArg Except.toOption h)
  refine ⟨fun h => ?_, differ (by decide +kernel), differ (by decide +kernel), differ (by decide +kernel),
    differ (by decide +kernel)⟩
  have hintegral : buried.Integral := by
    rintro _ ⟨⟩
    exact isIntegral_nested 126
  rw [decodeText_text _ (isIntegral_encode hintegral)] at h
  have hshallow : (nested 126).depth ≤ maxDepth - 1 := shallow_of_decode h _ rfl
  rw [depth_nested] at hshallow
  exact absurd hshallow (by decide)

/-- A job that has failed, nobody knows why. -/
def lost : Event := .jobEnd ⟨7⟩ .epoch (.failed none)

/-- The event with its tag in the middle, an unknown member and no reason. -/
def scrambled : Value :=
  .object [("hosts", .array [.ofUInt16 1, .null]), ("job_result", .object [("failed", .object [])]),
    ("type", .string "job_end"), ("time", Timestamp.epoch.encode), ("job_id", .ofUInt16 7)]

def scrambledText : String :=
  " \x7b\"hosts\":[1, null] ,\"job_result\":\x7b\"failed\":\x7b \x7d\x7d,\t\"type\":\"job_end\"," ++
    "\"time\":\"1970-01-01T00:00:00Z\",\"job_id\" : 7\x7d\n"

/-- The text with all that it leaves open. -/
def scrambledRendering : Rendering :=
  .object [] [
    (⟨[], strokesOf "hosts", []⟩,
      ⟨[], .array [] [⟨[], .number (.ofNat false 1), []⟩, ⟨[.space], .null, []⟩], [.space]⟩),
    (⟨[], strokesOf "job_result", []⟩,
      ⟨[], .object [] [(⟨[], strokesOf "failed", []⟩, ⟨[], .object [.space] [], []⟩)], []⟩),
    (⟨[.tab], strokesOf "type", []⟩, ⟨[], .string (strokesOf "job_end"), []⟩),
    (⟨[], strokesOf "time", []⟩, ⟨[], .string (strokesOf "1970-01-01T00:00:00Z"), []⟩),
    (⟨[], strokesOf "job_id", [.space]⟩, ⟨[.space], .number (.ofNat false 7), []⟩)]

theorem scrambled_decodes_alike :
    decodeText (fun _ => decode) scrambledText = .ok lost ∧
      (decodeText (fun _ => decode) scrambledText).map (fun e => e.encode.text) =
        .ok ("\x7b\"type\":\"job_end\",\"job_id\":7,\"time\":\"1970-01-01T00:00:00Z\"," ++
          "\"job_result\":\x7b\"failed\":\x7b\"reason\":null\x7d\x7d\x7d") := by
  have hfailed : (JobOutcome.failed none).IsForm (.object [("failed", .object [])]) :=
    ⟨none, _, .inl ⟨rfl, rfl⟩, isRecord_written [("reason", none)], rfl⟩
  have hspelling : lost.IsSpelling scrambled := by
    refine ⟨_, ⟨_, hfailed, rfl⟩, @IsRecord.object _ _ [("hosts", .array [.ofUInt16 1, .null])] ?_ ?_⟩
    · simp
    · decide +kernel
  obtain ⟨hread, hsame, -, -, hblanks⟩ := spellings_decode_alike
  have hspells := hblanks scrambled scrambledRendering [.space] [.lineFeed]
    (Value.isReadBack_of_isIntegral rfl) (by decide +kernel)
  have htext : scrambledText =
      String.ofList (gap [.space] ++ scrambledRendering.chars ++ gap [.lineFeed]) := by decide +kernel
  obtain ⟨hdecode, hencode⟩ := hread lost scrambled scrambledText hspelling (by decide) (htext ▸ hspells)
  have hregular : ∀ t ∈ lost.time?, t.IsRegular := by
    rintro _ ⟨⟩
    exact .inl (by decide)
  rw [(hsame lost).mpr hregular] at hdecode
  refine ⟨hdecode, hencode.trans (congrArg Except.ok ?_)⟩
  decide +kernel

end Event

end SessionTrail

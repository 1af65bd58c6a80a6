import SessionTrail.Event.Wire
import SessionTrail.Proofs.Parts
import SessionTrail.Proofs.Slots

/-!
# Events and their texts

Every event is read back from its text, unless it carries a payload with real numbers or one that is
nested deeper than a reader goes, or tells of a leap second in the midst of a minute. An event that was
read has a text of its own, and reading that again changes nothing (`Event.text_round_trip`).
-/
namespace SessionTrail

open Json Doc

namespace Event

/-! ## Fields -/

/-- The free payload of an event of another kind. -/
def payload? : Event → Option CanonicalValue
  | .other _ payload => some payload
  | _ => none

/-- There is no real number in the payload of an event. -/
def Integral (e : Event) : Prop := ∀ payload ∈ e.payload?, payload.value.isIntegral = true

/-- The payload of an event fits into the room that a reader has for it. -/
def Shallow (e : Event) : Prop := ∀ payload ∈ e.payload?, payload.value.depth ≤ maxDepth - 1

/-- The point in time that an event tells of. -/
def time? : Event → Option Timestamp
  | .applicationStart _ _ time _ | .applicationEnd time | .jobStart _ time _ | .jobEnd _ time _ => some time
  | _ => none

/-- The event as which an event is read. -/
def reread : Event → Event
  | .applicationStart appName appId time user => .applicationStart appName appId time.reread user
  | .applicationEnd time => .applicationEnd time.reread
  | .jobStart job time stages => .jobStart job time.reread stages
  | .jobEnd job time outcome => .jobEnd job time.reread outcome
  | e => e

theorem reread_eq_self {e : Event} : e.reread = e ↔ ∀ t ∈ e.time?, t.IsRegular := by
  cases e <;> simp [reread, time?, Timestamp.reread_eq_self]

/-- An event shares its text with the one as which it is read. -/
theorem encode_reread (e : Event) : e.reread.encode = e.encode := by
  cases e <;> simp only [reread, encode, members, kind, Timestamp.encode_reread]

theorem reads_payload : Reads decodePayload CanonicalValue.value := fun payload => by
  rw [decodePayload, toValue_ofValue, CanonicalValue.of_value]

theorem reads_stages : Reads decodeStages (.ofList StageId.encode) := StageId.reads.list

theorem reads_attempt : Reads decodeAttempt StageAttempt.encode := StageAttempt.reads .buffered

section

variable {α : Type} {decode : Decoder α} {encode : α → Value} {fields : Fields} {name : String} {a : α}
  {next : α → Except DecodeError Event} {e : Event}

/-- A field may be read as something else than was written. -/
theorem bind_get_of {f : α → α} (h : ∀ a, decode (ofValue (encode a)) = .ok (f a))
    (hf : fields.find? name = some (ofValue (encode a))) (hnext : next (f a) = .ok e) :
    (fields.get name decode >>= next) = .ok e := by
  rw [get_found hf (h a), ok_bind, hnext]

theorem bind_get (h : Reads decode encode) (hf : fields.find? name = some (ofValue (encode a)))
    (hnext : next a = .ok e) : (fields.get name decode >>= next) = .ok e :=
  bind_get_of h hf hnext

theorem bind_getD {default : α} (h : Reads decode encode)
    (hf : fields.find? name = some (ofValue (encode a))) (hnext : next a = .ok e) :
    (fields.getD name decode default >>= next) = .ok e := by
  rw [h.getD hf, ok_bind, hnext]

end

theorem takes_members (e : Event) : ∀ m ∈ e.members, Field.Takes (shape e.kind) (m.1, ofValue m.2) := by
  cases e <;> simp only [members, kind, List.forall_mem_cons] <;>
    repeat' apply And.intro
  -- What is left is one goal for each field, and the decoder of its type accepts it.
  all_goals first
    | exact List.forall_mem_nil _
    | exact reads_string.takes rfl rfl _
    | exact Field.takes_of_ok (Timestamp.decode_encode _) rfl rfl
    | exact StageId.reads.takes rfl rfl _
    | exact JobId.reads.takes rfl rfl _
    | exact reads_UInt16.takes rfl rfl _
    | exact reads_UInt32.takes rfl rfl _
    | exact reads_UInt64.takes rfl rfl _
    | exact (reads_string.option fun _ h => by cases h).takes rfl rfl _
    | exact reads_string.map.takes rfl rfl _
    | exact reads_stages.takes rfl rfl _
    | exact (JobOutcome.reads .buffered).takes rfl rfl _
    | exact reads_payload.takes rfl rfl _
    | exact reads_attempt.takes rfl rfl _

theorem ofFields_members (e : Event) : ofFields (Fields.ofMembers e.members) e.kind = .ok e.reread := by
  cases e <;> simp only [ofFields, kind, reread] <;> repeat
    first
    | refine bind_get reads_string rfl ?_
    | refine bind_get_of Timestamp.decode_encode rfl ?_
    | refine bind_get StageId.reads rfl ?_
    | refine bind_get JobId.reads rfl ?_
    | refine bind_get reads_UInt16 rfl ?_
    | refine bind_get reads_UInt32 rfl ?_
    | refine bind_get reads_UInt64 rfl ?_
    | refine bind_get reads_string.map rfl ?_
    | refine bind_get reads_stages rfl ?_
    | refine bind_get (JobOutcome.reads .buffered) rfl ?_
    | refine bind_get reads_attempt rfl ?_
    | refine bind_getD (reads_string.option nofun) rfl ?_
    | refine bind_getD reads_payload rfl ?_
    | rfl

theorem nodup_names (kind : EventKind) : ((shape kind).map (·.name)).Nodup := by
  cases kind <;> decide

theorem names_members (e : Event) : e.members.map (·.1) = (shape e.kind).map (·.name) := by
  cases e <;> rfl

theorem decodeFields_members (e : Event) (reading : Reading) :
    decodeFields reading (shape e.kind) (ofValue (.object e.members)) = .ok (Fields.ofMembers e.members) :=
  decodeFields_ofValue _ _ e.takes_members (e.names_members ▸ nodup_names e.kind)
    (fun _ hf _ => e.names_members ▸ List.mem_map_of_mem hf) reading

/-! ## Nesting -/

theorem isIntegral_outcome (outcome : JobOutcome) : outcome.encode.isIntegral = true := by
  rcases outcome with _ | _ | _ <;> rfl

theorem isIntegral_attempt (attempt : StageAttempt) : attempt.encode.isIntegral = true := by
  rcases attempt with ⟨_, _, _, _ | _ | _⟩ <;> rfl

theorem depth_outcome (outcome : JobOutcome) : outcome.encode.depth ≤ 2 := by
  rcases outcome with _ | _ | _ <;> exact Nat.le_of_ble_eq_true rfl

theorem depth_attempt (attempt : StageAttempt) : attempt.encode.depth ≤ 2 := by
  rcases attempt with ⟨_, _, _, _ | _ | _⟩ <;> exact Nat.le_of_ble_eq_true rfl

theorem isIntegral_members {e : Event} (h : e.Integral) : ∀ m ∈ e.members, m.2.isIntegral = true := by
  cases e <;> simp only [members, List.forall_mem_cons] <;> repeat' apply And.intro
  all_goals first
    | exact List.forall_mem_nil _
    | exact Value.isIntegral_ofOption (fun _ => rfl) _
    | exact Value.isIntegral_ofMap (fun _ => rfl) _
    | exact Value.isIntegral_ofList (fun _ => rfl) _
    | exact isIntegral_outcome _
    | exact isIntegral_attempt _
    | exact h _ rfl
    | rfl

theorem depth_members {e : Event} (h : e.Shallow) : ∀ m ∈ e.members, m.2.depth ≤ maxDepth - 1 := by
  have hroom : 2 ≤ maxDepth - 1 := by decide
  have htext : ∀ text, (Value.string text).depth ≤ 0 := fun _ => Nat.le_refl 0
  have hid : ∀ id : StageId, id.encode.depth ≤ 0 := fun _ => Nat.le_refl 0
  have hmap : ∀ m : SortedMap String, (Value.ofMap .string m).depth ≤ maxDepth - 1 := fun m =>
    Nat.le_trans (Value.depth_ofMap htext m) (by decide)
  have hlist : ∀ ids : List StageId, (Value.ofList StageId.encode ids).depth ≤ maxDepth - 1 := fun ids =>
    Nat.le_trans (Value.depth_ofList hid ids) (by decide)
  have hoption : ∀ o : Option String, (Value.ofOption .string o).depth ≤ maxDepth - 1 := fun o => by
    cases o <;> exact Nat.zero_le _
  cases e <;> simp only [members, List.forall_mem_cons] <;> repeat' apply And.intro
  all_goals first
    | exact List.forall_mem_nil _
    | exact Nat.zero_le _
    | exact Nat.le_trans (depth_outcome _) hroom
    | exact Nat.le_trans (depth_attempt _) hroom
    | exact hmap _
    | exact hlist _
    | exact hoption _
    | exact h _ rfl

theorem tag_not_among (kind : EventKind) : "type" ∉ (shape kind).map (·.name) := by
  cases kind <;> decide

/-- An event is read back from the document that it is written as, but for its leap second. -/
theorem decode_ofValue {e : Event} (h : e.Shallow) : decode (ofValue e.encode) = .ok e.reread := by
  have hname : e.kind.tag ∈ EventKind.all.map EventKind.tag := List.mem_map_of_mem e.kind.mem_all
  have hkeys : ∀ m ∈ e.members, m.1 ≠ "type" := fun m hm htype => by
    have hname : m.1 ∈ (shape e.kind).map (·.name) := e.names_members ▸ List.mem_map_of_mem hm
    exact tag_not_among e.kind (htype ▸ hname)
  rw [decode, encode, decodeTagged_ofValue hname hkeys (depth_members h), ok_bind]
  simp only [EventKind.ofTag?_tag]
  rw [decodeFields_members, ok_bind, ofFields_members]

theorem isIntegral_encode {e : Event} (h : e.Integral) : e.encode.isIntegral = true :=
  Value.isIntegralMembers_iff.mpr (List.forall_mem_cons.mpr ⟨rfl, isIntegral_members h⟩)

theorem decodeText_encode {e : Event} (hi : e.Integral) (hs : e.Shallow) :
    decodeText (fun _ => decode) e.encode.text = .ok e.reread := by
  rw [decodeText_text _ (isIntegral_encode hi), decode_ofValue hs]

/-! ## Events that were read -/

/-- What is made of fields holds of an event, if it does whatever the fields are read as. -/
theorem forall_of_bind {α : Type} {x : Except DecodeError α} {next : α → Except DecodeError Event}
    {P : Event → Prop} (h : ∀ a, x = .ok a → ∀ e, next a = .ok e → P e) :
    ∀ e, (x >>= next) = .ok e → P e := by
  intro e he
  obtain ⟨a, ha, he⟩ := bind_eq_ok.mp he
  exact h a ha e he

theorem kind_of_ofFields {fields : Fields} {kind : EventKind} :
    ∀ e, ofFields fields kind = .ok e → e.kind = kind := by
  cases kind <;> simp only [ofFields] <;> repeat refine forall_of_bind fun _ _ => ?_
  all_goals
    rintro _ ⟨⟩
    rfl

/-- No event is read that tells of a leap second in the midst of a minute. -/
theorem isRegular_of_ofFields {fields : Fields} {kind : EventKind} :
    ∀ e, ofFields fields kind = .ok e → ∀ t ∈ e.time?, t.IsRegular := by
  have hget : ∀ t, fields.get "time" Timestamp.decode = .ok t → t.IsRegular := fun t ht => by
    rw [Fields.get] at ht
    split at ht
    · exact Timestamp.isRegular_of_decode ht
    · cases ht
  cases kind <;> simp only [ofFields] <;> repeat refine forall_of_bind fun _ _ => ?_
  all_goals
    rintro _ ⟨⟩ t ht
    -- Most kinds tell of no time.
    cases ht <;> exact hget _ ‹_›

/-- The payload of an event is a field of its record, or null. -/
theorem payload_of_ofFields {fields : Fields} {kind : EventKind} {k : String} {payload : CanonicalValue}
    (h : ofFields fields kind = .ok (.other k payload)) :
    payload = .of .null ∨ ∃ f ∈ fields, payload = .of f.2.toValue := by
  obtain rfl := kind_of_ofFields _ h
  obtain ⟨_, _, h⟩ := bind_eq_ok.mp h
  obtain ⟨payload, hpayload, h⟩ := bind_eq_ok.mp h
  cases h
  rw [Fields.getD] at hpayload
  split at hpayload
  · rename_i d hd
    cases hpayload
    obtain ⟨f, hf, rfl⟩ := Option.map_eq_some_iff.mp hd
    exact .inr ⟨f, List.mem_of_find?_eq_some hf, rfl⟩
  · cases hpayload
    exact .inl rfl

theorem ofFields_of_decode {d : Doc} {e : Event} (h : decode d = .ok e) :
    ∃ fields kind, ofFields fields kind = .ok e ∧ ∀ f ∈ fields, f.2.toValue.depth ≤ maxDepth - 1 := by
  obtain ⟨⟨tag, body⟩, htagged, h⟩ := bind_eq_ok.mp h
  simp only at h
  split at h
  · obtain ⟨fields, hfields, h⟩ := bind_eq_ok.mp h
    exact ⟨fields, _, h, fun f hf =>
      depth_toValue f.2 _ (check_of_decodeTagged htagged f.2 (docs_of_decodeFields hfields f hf))⟩
  · cases h

theorem isRegular_of_decode {d : Doc} {e : Event} (h : decode d = .ok e) : ∀ t ∈ e.time?, t.IsRegular := by
  obtain ⟨_, _, hfields, -⟩ := ofFields_of_decode h
  exact isRegular_of_ofFields _ hfields

/-- The payload of an event that was read fits into the room that a reader has. -/
theorem shallow_of_decode {d : Doc} {e : Event} (h : decode d = .ok e) : e.Shallow := by
  obtain ⟨_, _, hfields, hdepth⟩ := ofFields_of_decode h
  intro payload hpayload
  cases e <;> cases hpayload
  rcases payload_of_ofFields hfields with rfl | ⟨f, hf, rfl⟩
  · exact Nat.zero_le _
  · exact Nat.le_trans (Value.depth_canonical f.2.toValue) (hdepth f hf)

/-- An event is read back from its text exactly if it tells of no leap second in the midst of a minute, and an
event that was read from any text has a text from which it is read back. -/
theorem text_round_trip :
    (∀ e : Event, (∀ payload ∈ e.payload?, payload.value.isIntegral = true ∧ payload.value.depth ≤ 126) →
      (decodeText (fun _ => decode) e.encode.text = .ok e ↔ ∀ t ∈ e.time?, t.IsRegular)) ∧
    ∀ text e, decodeText (fun _ => decode) text = .ok e →
      (∀ payload ∈ e.payload?, payload.value.isIntegral = true) →
      decodeText (fun _ => decode) e.encode.text = .ok e ∧
        (decodeText (fun _ => decode) e.encode.text).map (fun e => e.encode.text) = .ok e.encode.text := by
  refine ⟨fun e h => ?_, fun text e hread hi => ?_⟩
  · rw [decodeText_encode (fun p hp => (h p hp).1) fun p hp => (h p hp).2, Except.ok.injEq, reread_eq_self]
  · obtain ⟨e', hdecode, hrest⟩ := bind_eq_ok.mp hread
    have he : e' = e := by
      split at hrest <;> cases hrest
      rfl
    subst he
    have hback := decodeText_encode hi (shallow_of_decode hdecode)
    rw [reread_eq_self.mpr (isRegular_of_decode hdecode)] at hback
    exact ⟨hback, by rw [hback]; rfl⟩

/-- A text of an event as an array, whose payload has its members out of order. -/
def looseText : String := "[\"other\",\"\\u0007\",\x7b\"b\":-1,\"a\":[\"\\/\"]\x7d]"

/-- The event that it is read as. -/
def loose : Event := .other "\x07" ⟨.object [("a", .array [.string "/"]),
  ("b", .number (.integer ⟨-1, by decide, by decide⟩))], rfl⟩

/-- An event of a leap second at the end of a minute. -/
def leaping : Event := .applicationEnd .endOfMinute

theorem loose_round_trip :
    decodeText (fun _ => decode) looseText = .ok loose ∧
      loose.encode.text =
        "\x7b\"type\":\"other\",\"kind\":\"\\u0007\",\"payload\":\x7b\"a\":[\"/\"],\"b\":-1\x7d\x7d" ∧
      decodeText (fun _ => decode) loose.encode.text = .ok loose ∧
      (decodeText (fun _ => decode) loose.encode.text).map (fun e => e.encode.text) =
        .ok loose.encode.text ∧
      leaping.encode.text = "\x7b\"type\":\"application_end\",\"time\":\"+12016-12-31T23:59:60.500Z\"\x7d" ∧
      decodeText (fun _ => decode) leaping.encode.text = .ok leaping := by
  have hread : decodeText (fun _ => decode) looseText = .ok loose := by
    have hsome : (decodeText (fun _ => decode) looseText).toOption = some loose := by decide +kernel
    cases h : decodeText (fun _ => decode) looseText <;> rw [h] at hsome <;> cases hsome
    rfl
  have hfits : ∀ payload ∈ loose.payload?, payload.value.isIntegral = true ∧ payload.value.depth ≤ 126 := by
    rintro _ ⟨⟩
    exact ⟨rfl, by decide⟩
  have htimeless : ∀ t ∈ loose.time?, t.IsRegular := by
    rintro _ ⟨⟩
  have hregular : ∀ t ∈ leaping.time?, t.IsRegular := by
    rintro _ ⟨⟩
    exact .inr rfl
  exact ⟨hread, by decide +kernel, (text_round_trip.1 loose hfits).mpr htimeless,
    (text_round_trip.2 looseText loose hread fun p hp => (hfits p hp).1).2, by decide +kernel,
    (text_round_trip.1 leaping (by rintro _ ⟨⟩)).mpr hregular⟩

/-- An event of a leap second in the midst of a minute. -/
def straying : Event := .applicationEnd .midMinute

/-- The text of an event may be that of another one, and is read as that. -/
theorem straying_is_read_as_another :
    (∀ payload ∈ straying.payload?, payload.value.isIntegral = true ∧ payload.value.depth ≤ 126) ∧
      decodeText (fun _ => decode) straying.encode.text = .ok straying.reread ∧
      straying.reread.time?.map (fun t => (t.second, t.nano)) = some (5, 333333333) ∧
      straying.time?.map (fun t => (t.second, t.nano)) = some (4, 1333333333) ∧
      decodeText (fun _ => decode) straying.encode.text ≠ .ok straying := by
  have hread : decodeText (fun _ => decode) straying.encode.text = .ok straying.reread :=
    decodeText_encode (by rintro _ ⟨⟩) (by rintro _ ⟨⟩)
  refine ⟨by rintro _ ⟨⟩, hread, rfl, rfl, fun h => ?_⟩
  have hregular := reread_eq_self.mp (Except.ok.inj (hread.symm.trans h)) .midMinute rfl
  exact absurd hregular (by decide)

end Event

end SessionTrail

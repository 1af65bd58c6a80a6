import SessionTrail.Proofs.Nesting
import SessionTrail.Proofs.Rescan

/-!
# Records with parts that may be left out

A record is written from slots, one for each field in order; a slot that is empty writes no member. What a
decoder answers for a slot is what it reads from the value in it, and the default where it is empty.
-/
namespace SessionTrail.Json

open Doc

/-- The members of a record that is written from slots. -/
def Value.written (slots : List (String × Option Value)) : List (String × Value) :=
  slots.filterMap fun s => s.2.map (s.1, ·)

/-- A value is without real numbers and is read as `a`. -/
structure Stands {α : Type} (decode : Decoder α) (a : α) (v : Value) : Prop where
  integral : v.isIntegral = true
  read : decode (ofValue v) = .ok a

/-- What is read from a slot: the value in it, or the default if it is empty. -/
def Answers {α : Type} (decode : Decoder α) (default a : α) : Option Value → Prop
  | some v => decode (ofValue v) = .ok a
  | none => a = default

/-- The value in a slot stands for `a`, or the slot is empty and `a` is the default. -/
def Fills {α : Type} (decode : Decoder α) (default a : α) : Option Value → Prop
  | some v => Stands decode a v
  | none => a = default

theorem Reads.stands {α : Type} {decode : Decoder α} {encode : α → Value} (h : Reads decode encode)
    (hi : ∀ a, (encode a).isIntegral = true) (a : α) : Stands decode a (encode a) :=
  ⟨hi a, h a⟩

theorem Fills.answers {α : Type} {decode : Decoder α} {default a : α} {v? : Option Value}
    (h : Fills decode default a v?) : Answers decode default a v? := by
  cases v? with
  | none => exact h
  | some v => exact h.read

/-- The value in a slot, if there is one, is without real numbers and a field of a record. -/
def Fits (shape : List Field) (s : String × Option Value) : Prop :=
  ∀ v ∈ s.2, v.isIntegral = true ∧ Field.Takes shape (s.1, ofValue v)

theorem Stands.fits {α : Type} {decode : Decoder α} {a : α} {v : Value} (h : Stands decode a v)
    {shape : List Field} {name : String} {f : Field} (hf : shape.find? (·.name = name) = some f)
    (haccepts : f.accepts = Field.test decode) : Fits shape (name, some v) := by
  rintro _ ⟨⟩
  exact ⟨h.integral, Field.takes_of_ok h.read hf haccepts⟩

theorem Fills.fits {α : Type} {decode : Decoder α} {default a : α} {v? : Option Value}
    (h : Fills decode default a v?) {shape : List Field} {name : String} {f : Field}
    (hf : shape.find? (·.name = name) = some f) (haccepts : f.accepts = Field.test decode) :
    Fits shape (name, v?) := by
  cases v? with
  | none => exact nofun
  | some v => exact Stands.fits h hf haccepts

section

variable {slots : List (String × Option Value)}

theorem mem_written {name : String} {v : Value} :
    (name, v) ∈ Value.written slots ↔ (name, some v) ∈ slots := by
  simp only [Value.written, List.mem_filterMap, Option.map_eq_some_iff, Prod.mk.injEq]
  constructor
  · rintro ⟨⟨name', _⟩, hm, v', rfl, rfl, rfl⟩
    exact hm
  · exact fun hm => ⟨_, hm, v, rfl, rfl, rfl⟩

theorem written_append (slots more : List (String × Option Value)) :
    Value.written (slots ++ more) = Value.written slots ++ Value.written more :=
  List.filterMap_append

theorem written_names : ((Value.written slots).map (·.1)).Sublist (slots.map (·.1)) := by
  induction slots with
  | nil => exact List.Sublist.slnil
  | cons s rest ih =>
    obtain ⟨name, _ | v⟩ := s
    · exact ih.cons name
    · exact ih.cons_cons name

/-! Members that are left out when they are empty come from one slot. -/

theorem memberOfOption_eq {α : Type} (name : String) (encode : α → Value) (o : Option α) :
    Value.memberOfOption name encode o = Value.written [(name, o.map encode)] := by
  cases o <;> rfl

theorem memberOfMap_eq {α : Type} (name : String) (encode : α → Value) (m : SortedMap α) :
    Value.memberOfMap name encode m =
      Value.written [(name, if m.isEmpty then none else some (.ofMap encode m))] := by
  unfold Value.memberOfMap
  split <;> rfl

theorem memberOfList_eq {α : Type} (name : String) (encode : α → Value) (as : List α) :
    Value.memberOfList name encode as =
      Value.written [(name, if as.isEmpty then none else some (.ofList encode as))] := by
  unfold Value.memberOfList
  split <;> rfl

/-- What is found under a name is the value of its slot. -/
theorem find?_written (hnodup : (slots.map (·.1)).Nodup) {name : String} {v? : Option Value}
    (hs : (name, v?) ∈ slots) : (Fields.ofMembers (Value.written slots)).find? name = v?.map ofValue := by
  induction slots with
  | nil => cases hs
  | cons s rest ih =>
    obtain ⟨other, w?⟩ := s
    rw [List.map_cons, List.nodup_cons] at hnodup
    rcases List.mem_cons.mp hs with heq | hs
    · cases heq
      cases v? with
      | some v => simp [Value.written, Fields.ofMembers, Fields.find?]
      | none =>
        refine Fields.find?_eq_none.mpr fun hm => hnodup.1 (written_names.subset ?_)
        simpa [Value.written, Fields.ofMembers] using hm
    · have hne : other ≠ name := fun h => hnodup.1 (h ▸ List.mem_map_of_mem (f := (·.1)) hs)
      have hrest := ih hnodup.2 hs
      cases w? with
      | none => exact hrest
      | some w =>
        rw [← hrest]
        simp [Value.written, Fields.ofMembers, Fields.find?, hne]

/-- A record that is written from slots is found again. -/
theorem decodeFields_written {shape : List Field} (hnodup : (slots.map (·.1)).Nodup)
    (hfits : ∀ s ∈ slots, Fits shape s)
    (hrequired : ∀ f ∈ shape, f.presence = .required → ∃ v, (f.name, some v) ∈ slots) (reading : Reading) :
    decodeFields reading shape (ofValue (.object (Value.written slots))) =
      .ok (Fields.ofMembers (Value.written slots)) := by
  refine decodeFields_ofValue _ _ (fun m hm => ?_) (hnodup.sublist written_names) (fun f hf hp => ?_) reading
  · exact (hfits _ (mem_written.mp hm) m.2 rfl).2
  · obtain ⟨v, hv⟩ := hrequired f hf hp
    exact List.mem_map_of_mem (f := (·.1)) (mem_written.mpr hv)

theorem get_found {α : Type} {decode : Decoder α} {a : α} {fields : Fields} {name : String} {v : Value}
    (hf : fields.find? name = (some v).map ofValue) (h : decode (ofValue v) = .ok a) :
    fields.get name decode = .ok a := by
  rw [Fields.get, hf]
  exact h

theorem getD_found {α : Type} {decode : Decoder α} {default a : α} {fields : Fields} {name : String}
    {v? : Option Value} (hf : fields.find? name = v?.map ofValue) (h : Answers decode default a v?) :
    fields.getD name decode default = .ok a := by
  rw [Fields.getD, hf]
  cases v? with
  | none => exact congrArg Except.ok (Eq.symm h)
  | some v => exact h

theorem get_written {α : Type} {decode : Decoder α} {a : α} {name : String} {v : Value}
    (hnodup : (slots.map (·.1)).Nodup) (hs : (name, some v) ∈ slots) (h : Stands decode a v) :
    (Fields.ofMembers (Value.written slots)).get name decode = .ok a :=
  get_found (find?_written hnodup hs) h.read

theorem getD_written {α : Type} {decode : Decoder α} {default a : α} {name : String} {v? : Option Value}
    (hnodup : (slots.map (·.1)).Nodup) (hs : (name, v?) ∈ slots) (h : Fills decode default a v?) :
    (Fields.ofMembers (Value.written slots)).getD name decode default = .ok a :=
  getD_found (find?_written hnodup hs) h.answers

theorem isIntegral_written {shape : List Field} (hfits : ∀ s ∈ slots, Fits shape s) :
    (Value.object (Value.written slots)).isIntegral = true :=
  Value.isIntegralMembers_iff.mpr fun m hm => (hfits _ (mem_written.mp hm) m.2 rfl).1

end

end SessionTrail.Json

import SessionTrail.Proofs.Slots

/-!
# Forms of a record

The values of the fields of a record stand in slots, in the order of the fields. The record is written as an
object, with its members in any order and with members among them that are no fields, or as an array of the
values. A reader finds in each form what stands in the slots (`decodeFields_record`), and it takes the tag
off a form of a tagged record and leaves a form of the rest (`decodeTagged_record`).
-/
namespace SessionTrail.Json

open Doc

/-- The slots of a record with the given fields. An empty slot is that of a field with a default, or of one
that may be null and does not stand at the end. -/
inductive Shaped : List Field → List (String × Option Value) → Prop where
  | nil : Shaped [] []
  | full {f : Field} {shape : List Field} {slots : List (String × Option Value)} {v : Value}
      (haccepts : f.accepts (ofValue v) = .ok ()) (hrest : Shaped shape slots) :
      Shaped (f :: shape) ((f.name, some v) :: slots)
  | empty {f : Field} {shape : List Field} {slots : List (String × Option Value)}
      (hpresence : f.presence = .defaulted ∨ (f.presence = .nullable ∧ ∃ s ∈ slots, s.2.isSome = true))
      (hrest : Shaped shape slots) : Shaped (f :: shape) ((f.name, none) :: slots)

/-- The forms of a record that is written from slots. -/
inductive IsRecord (slots : List (String × Option Value)) : Value → Prop where
  /-- An object with the members in any order, and others that have no name of a slot. -/
  | object {members others : List (String × Value)} (hothers : ∀ m ∈ others, m.1 ∉ slots.map (·.1))
      (hperm : members.Perm (Value.written slots ++ others)) : IsRecord slots (.object members)
  /-- An array of the values in order, where the slots behind them are empty. -/
  | array {values : List Value} {n : Nat}
      (hvalues : slots.map (·.2) = values.map some ++ List.replicate n none) : IsRecord slots (.array values)

theorem isRecord_written (slots : List (String × Option Value)) :
    IsRecord slots (.object (Value.written slots)) :=
  @IsRecord.object slots _ [] nofun (by rw [List.append_nil])

/-- The slots of members of which none is left out. -/
def slotsOf (members : List (String × Value)) : List (String × Option Value) :=
  members.map fun m => (m.1, some m.2)

@[simp] theorem names_slotsOf (members : List (String × Value)) :
    (slotsOf members).map (·.1) = members.map (·.1) := List.map_map

@[simp] theorem written_slotsOf (members : List (String × Value)) :
    Value.written (slotsOf members) = members := by
  induction members with
  | nil => rfl
  | cons m rest ih => exact congrArg (m :: ·) ih

namespace Doc

mutual

/-- A value is passed over. -/
theorem skip_ofValue : (v : Value) → (ofValue v).skip = .ok ()
  | .null | .bool _ | .number _ | .string _ => rfl
  | .array items => by
    rw [ofValue, skip, skipItems_ofItems items]
    rfl
  | .object members => by
    rw [ofValue, skip, skipMembers_ofMembers members]
    rfl

theorem skipItems_ofItems : (items : List Value) → skipItems (ofItems items) = .ok ()
  | [] => rfl
  | item :: rest => by
    rw [ofItems, skipItems, skip_ofValue item]
    exact skipItems_ofItems rest

theorem skipMembers_ofMembers : (members : List (String × Value)) → skipMembers (ofMembers members) = .ok ()
  | [] => rfl
  | (_, member) :: rest => by
    rw [ofMembers, skipMembers, skip_ofValue member]
    exact skipMembers_ofMembers rest

end

end Doc

theorem Field.Takes.tail {shape : List Field} {m : String × Doc} (h : Field.Takes shape m) {f : Field}
    (hne : f.name ≠ m.1) : Field.Takes (f :: shape) m := by
  obtain ⟨g, hg, hok⟩ := h
  exact ⟨g, by rw [List.find?_cons_of_neg (by simpa using hne), hg], hok⟩

namespace Shaped

variable {shape : List Field} {slots : List (String × Option Value)}

theorem names (h : Shaped shape slots) : slots.map (·.1) = shape.map (·.name) := by
  induction h with
  | nil => rfl
  | full _ _ ih | empty _ _ ih => rw [List.map_cons, List.map_cons, ih]

/-- Values are accepted behind a field with a name of its own. -/
theorem takes_tail {f : Field} (hfresh : f.name ∉ slots.map (·.1))
    (h : ∀ m ∈ Value.written slots, Field.Takes shape (m.1, ofValue m.2)) :
    ∀ m ∈ Value.written slots, Field.Takes (f :: shape) (m.1, ofValue m.2) := by
  intro m hm
  refine (h m hm).tail fun heq => hfresh ?_
  exact heq ▸ written_names.subset (List.mem_map_of_mem hm)

/-- Each value is one that its field accepts. -/
theorem takes (h : Shaped shape slots) (hnodup : (slots.map (·.1)).Nodup) :
    ∀ m ∈ Value.written slots, Field.Takes shape (m.1, ofValue m.2) := by
  induction h with
  | nil => exact nofun
  | full haccepts _ ih =>
    rw [List.map_cons, List.nodup_cons] at hnodup
    refine List.forall_mem_cons.mpr ⟨⟨_, ?_, haccepts⟩, takes_tail hnodup.1 (ih hnodup.2)⟩
    exact List.find?_cons_of_pos (decide_eq_true rfl)
  | empty _ _ ih =>
    rw [List.map_cons, List.nodup_cons] at hnodup
    have hrest := takes_tail hnodup.1 (ih hnodup.2)
    exact hrest

/-- A member with another name is passed over. -/
theorem leaves (h : Shaped shape slots) {m : String × Value} (hm : m.1 ∉ slots.map (·.1)) :
    Field.Leaves shape (m.1, ofValue m.2) := by
  refine ⟨List.find?_eq_none.mpr fun f hf heq => hm ?_, skip_ofValue m.2⟩
  rw [h.names, ← of_decide_eq_true heq]
  exact List.mem_map_of_mem hf

/-- No required field is missing. -/
theorem required (h : Shaped shape slots) :
    ∀ f ∈ shape, f.presence = .required → f.name ∈ (Value.written slots).map (·.1) := by
  induction h with
  | nil => exact nofun
  | full _ _ ih =>
    refine List.forall_mem_cons.mpr ⟨fun _ => List.mem_cons_self, fun f hf hp => ?_⟩
    exact List.mem_cons_of_mem _ (ih f hf hp)
  | empty hpresence _ ih =>
    refine List.forall_mem_cons.mpr ⟨fun hp => ?_, ih⟩
    rw [hp] at hpresence
    rcases hpresence with h | ⟨h, -⟩ <;> cases h

/-- Members with values that their fields accept, one for each field, leave no slot empty. -/
theorem of_members {members : List (String × Value)} (hnames : members.map (·.1) = shape.map (·.name))
    (hnodup : (shape.map (·.name)).Nodup)
    (htakes : ∀ m ∈ members, Field.Takes shape (m.1, ofValue m.2)) :
    Shaped shape (slotsOf members) := by
  induction shape generalizing members with
  | nil =>
    cases List.map_eq_nil_iff.mp hnames
    exact .nil
  | cons f shape ih =>
    obtain ⟨⟨name, v⟩, rest, rfl, hname, hrest⟩ := List.map_eq_cons_iff.mp hnames
    rw [List.map_cons, List.nodup_cons] at hnodup
    obtain ⟨⟨g, hg, hok⟩, htail⟩ := List.forall_mem_cons.mp htakes
    cases hname
    simp only [List.find?_cons, decide_true] at hg
    cases hg
    refine .full hok (ih hrest hnodup.2 fun m hm => ?_)
    obtain ⟨g, hg, hok⟩ := htail m hm
    have hne : f.name ≠ m.1 := fun heq => hnodup.1 (heq ▸ hrest ▸ List.mem_map_of_mem hm)
    rw [List.find?_cons_of_neg (by simpa using hne)] at hg
    exact ⟨g, hg, hok⟩

end Shaped

/-! ## Members of an object -/

namespace Fields

theorem find?_eq_some_iff {fields : Fields} (hnodup : (fields.map (·.1)).Nodup) {name : String} {d : Doc} :
    fields.find? name = some d ↔ (name, d) ∈ fields := by
  induction fields with
  | nil => exact ⟨nofun, nofun⟩
  | cons field rest ih =>
    obtain ⟨key, member⟩ := field
    rw [List.map_cons, List.nodup_cons] at hnodup
    by_cases heq : key = name
    · subst heq
      have hfresh : (key, d) ∉ rest := fun hm => hnodup.1 (List.mem_map_of_mem (f := (·.1)) hm)
      simp [find?, hfresh, eq_comm]
    · rw [List.mem_cons, ← ih hnodup.2]
      simp [find?, heq, Ne.symm heq]

/-- Fields without repeats are found alike in any order. -/
theorem find?_perm {fields more : Fields} (hperm : fields.Perm more) (hnodup : (fields.map (·.1)).Nodup)
    (name : String) : fields.find? name = more.find? name := by
  ext d
  rw [find?_eq_some_iff hnodup, find?_eq_some_iff ((hperm.map _).nodup_iff.mp hnodup), hperm.mem_iff]

end Fields

section

variable {shape : List Field} {slots : List (String × Option Value)}

theorem known_append (members more : Fields) :
    Fields.known shape (members ++ more) = members.known shape ++ more.known shape := List.filter_append ..

/-- Of the members of an object, the fields are known. -/
theorem known_perm (h : Shaped shape slots) (hnodup : (slots.map (·.1)).Nodup)
    {members others : List (String × Value)} (hothers : ∀ m ∈ others, m.1 ∉ slots.map (·.1))
    (hperm : members.Perm (Value.written slots ++ others)) :
    ((Fields.ofMembers members).known shape).Perm (Fields.ofMembers (Value.written slots)) := by
  have hwritten := Fields.known_of_takes (List.forall_mem_map.mpr (h.takes hnodup))
  have hrest := Fields.known_of_leaves (List.forall_mem_map.mpr fun m hm => h.leaves (hothers m hm))
  have hknown : Fields.known shape (Fields.ofMembers (Value.written slots ++ others)) =
      Fields.ofMembers (Value.written slots) := by
    rw [Fields.ofMembers, List.map_append, known_append, hwritten, hrest, List.append_nil, Fields.ofMembers]
  exact hknown ▸ (hperm.map _).filter _

theorem decodeFields_members (h : Shaped shape slots) (hnodup : (slots.map (·.1)).Nodup)
    {members others : List (String × Value)} (hothers : ∀ m ∈ others, m.1 ∉ slots.map (·.1))
    (hperm : members.Perm (Value.written slots ++ others)) (reading : Reading) :
    decodeFields reading shape (ofValue (.object members)) =
      .ok ((Fields.ofMembers members).known shape) := by
  have hknown := known_perm h hnodup hothers hperm
  have hnames := Fields.names_ofMembers (Value.written slots)
  have hmembers : ∀ m ∈ members,
      Field.Takes shape (m.1, ofValue m.2) ∨ Field.Leaves shape (m.1, ofValue m.2) := by
    intro m hm
    rcases List.mem_append.mp (hperm.mem_iff.mp hm) with hm | hm
    · exact .inl (h.takes hnodup m hm)
    · exact .inr (h.leaves (hothers m hm))
  have hdistinct : ((Fields.known shape (Fields.ofMembers members)).map (·.1)).Nodup :=
    (hknown.map _).nodup_iff.mpr (hnames ▸ hnodup.sublist written_names)
  have hmissing : firstMissing shape ((Fields.ofMembers members).known shape) = none :=
    firstMissing_eq_none.mpr fun f hf hp => (hknown.map _).mem_iff.mpr (hnames ▸ h.required f hf hp)
  rw [ofValue, decodeFields, ofMembers_eq]
  exact fieldsOfMembers_eq (List.forall_mem_map.mpr hmembers) hdistinct hmissing

/-! ## Items of an array -/

theorem fieldsOfItems_eq (h : Shaped shape slots) {values : List Value} {n : Nat}
    (hvalues : slots.map (·.2) = values.map some ++ List.replicate n none) (reading : Reading)
    (found : Fields) :
    fieldsOfItems reading none found shape (ofItems values) =
      .ok (found ++ Fields.ofMembers (Value.written slots)) := by
  induction h generalizing values n found with
  | nil =>
    obtain ⟨hvalues, -⟩ := List.append_eq_nil_iff.mp hvalues.symm
    cases List.map_eq_nil_iff.mp hvalues
    exact congrArg Except.ok (List.append_nil found).symm
  | full haccepts _ ih =>
    cases values with
    | nil => cases n <;> cases hvalues
    | cons value values =>
      obtain ⟨hvalue, hrest⟩ := List.cons_eq_cons.mp hvalues
      cases hvalue
      rw [ofItems, fieldsOfItems, haccepts, ok_bind, ih hrest, List.append_assoc]
      rfl
  | empty hpresence _ ih =>
    cases values with
    | cons value values => cases hvalues
    | nil =>
      cases n with
      | zero => cases hvalues
      | succ n =>
        obtain ⟨-, hrest⟩ := List.cons_eq_cons.mp hvalues
        -- Behind an empty slot of an array no other holds a value, so the field has a default.
        rcases hpresence with hdefaulted | ⟨-, s, hs, hsome⟩
        · rw [ofItems, fieldsOfItems, if_pos hdefaulted]
          exact @ih [] n hrest found
        · have hnone : s.2 ∈ List.replicate n none := hrest ▸ List.mem_map_of_mem hs
          rw [List.eq_of_mem_replicate hnone] at hsome
          cases hsome

/-- A reader finds in a form of a record what stands in the slots. -/
theorem decodeFields_record (h : Shaped shape slots) (hnodup : (slots.map (·.1)).Nodup) {v : Value}
    (hv : IsRecord slots v) (reading : Reading) :
    ∃ fields, decodeFields reading shape (ofValue v) = .ok fields ∧
      ∀ s ∈ slots, fields.find? s.1 = s.2.map ofValue := by
  have hwritten : ((Fields.ofMembers (Value.written slots)).map (·.1)).Nodup :=
    Fields.names_ofMembers (Value.written slots) ▸ hnodup.sublist written_names
  cases hv with
  | object hothers hperm =>
    have hknown := known_perm h hnodup hothers hperm
    refine ⟨_, decodeFields_members h hnodup hothers hperm reading, fun s hs => ?_⟩
    rw [← Fields.find?_perm hknown.symm hwritten, find?_written hnodup hs]
  | array hvalues =>
    refine ⟨_, fieldsOfItems_eq h hvalues reading [], fun s hs => ?_⟩
    exact find?_written hnodup hs

/-! ## Tags -/

/-- A form of a tagged record is taken apart into its tag and a form of the rest. -/
theorem decodeTagged_record {tag name : String} {names : List String} (hname : name ∈ names)
    (htag : tag ∉ slots.map (·.1)) {v : Value} (hv : IsRecord ((tag, some (.string name)) :: slots) v)
    (hdepth : v.depth ≤ maxDepth) :
    ∃ body, decodeTagged tag names (ofValue v) = .ok (name, ofValue body) ∧ IsRecord slots body := by
  cases hv with
  | @object members others hothers hperm =>
    have hothers : ∀ m ∈ others, m.1 ≠ tag ∧ m.1 ∉ slots.map (·.1) := fun m hm =>
      not_or.mp fun h => hothers m hm (List.mem_cons.mpr h)
    have hm : (tag, Value.string name) ∈ members := hperm.mem_iff.mpr List.mem_cons_self
    obtain ⟨before, behind, rfl⟩ := List.append_of_mem hm
    have hrest : (before ++ behind).Perm (Value.written slots ++ others) :=
      (List.perm_middle.symm.trans hperm).cons_inv
    have hkeys : ∀ m ∈ before ++ behind, m.1 ≠ tag := fun m hm => by
      rcases List.mem_append.mp (hrest.mem_iff.mp hm) with hm | hm
      · exact fun heq => htag (heq ▸ written_names.subset (List.mem_map_of_mem hm))
      · exact (hothers m hm).1
    have hroom : ∀ m ∈ before ++ behind, m.2.depth ≤ maxDepth - 1 := fun m hm =>
      Value.depthMembers_le.mp (Nat.le_sub_one_of_lt hdepth) m (by
        simp only [List.mem_append, List.mem_cons] at hm ⊢
        exact hm.imp_right Or.inr)
    exact ⟨_, decodeTagged_ofMembers hname hkeys hroom, .object (fun m hm => (hothers m hm).2) hrest⟩
  | @array values n hvalues =>
    cases values with
    | nil => cases n <;> cases hvalues
    | cons value values =>
      obtain ⟨hvalue, hrest⟩ := List.cons_eq_cons.mp hvalues
      cases hvalue
      have hroom := checkItems_ofItems values (maxDepth - 1) (by
        simp only [Value.depth, Value.depthItems] at hdepth
        omega)
      refine ⟨.array values, ?_, .array hrest⟩
      rw [ofValue, ofItems, decodeTagged, decodeTag_ofValue hname, ok_bind, hroom]
      rfl

end

end SessionTrail.Json

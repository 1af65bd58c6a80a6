import SessionTrail.Proofs.Records

/-!
# How deep values are nested

A value that is nested no deeper than there is room is accepted by a reader, and a document that a reader
accepts gives no deeper value (`check_ofValue`, `depth_toValue`). Sorting the members of a value makes it
no deeper. The body of a tagged record is accepted as a whole before its fields are read: a record that was
written with members that are not too deep is taken apart again (`decodeTagged_ofValue`), and what is
taken apart has no parts that are too deep (`check_of_decodeTagged`).
-/
namespace SessionTrail.Json

open Doc

namespace Value

theorem depthItems_le {items : List Value} {n : Nat} :
    depthItems items ≤ n ↔ ∀ v ∈ items, v.depth ≤ n := by
  induction items with
  | nil => simp [depthItems]
  | cons item rest ih => rw [depthItems, Nat.max_le, ih, List.forall_mem_cons]

theorem depthMembers_le {members : List (String × Value)} {n : Nat} :
    depthMembers members ≤ n ↔ ∀ m ∈ members, m.2.depth ≤ n := by
  induction members with
  | nil => simp [depthMembers]
  | cons m rest ih => rw [depthMembers, Nat.max_le, ih, List.forall_mem_cons]

theorem isIntegralItems_iff {items : List Value} :
    isIntegralItems items = true ↔ ∀ v ∈ items, v.isIntegral = true := by
  induction items with
  | nil => simp [isIntegralItems]
  | cons item rest ih => simp [isIntegralItems, ih]

theorem isIntegralMembers_iff {members : List (String × Value)} :
    isIntegralMembers members = true ↔ ∀ m ∈ members, m.2.isIntegral = true := by
  induction members with
  | nil => simp [isIntegralMembers]
  | cons m rest ih => simp [isIntegralMembers, ih]

variable {α : Type} {encode : α → Value}

theorem isIntegral_ofOption (h : ∀ a, (encode a).isIntegral = true) (o : Option α) :
    (ofOption encode o).isIntegral = true := by
  cases o with
  | none => rfl
  | some a => exact h a

theorem isIntegral_ofList (h : ∀ a, (encode a).isIntegral = true) (as : List α) :
    (ofList encode as).isIntegral = true := by
  rw [ofList, isIntegral, isIntegralItems_iff]
  exact List.forall_mem_map.mpr fun a _ => h a

theorem isIntegral_ofMap (h : ∀ a, (encode a).isIntegral = true) (m : SortedMap α) :
    (ofMap encode m).isIntegral = true := by
  rw [ofMap, isIntegral, isIntegralMembers_iff]
  exact List.forall_mem_map.mpr fun e _ => h e.2

theorem depth_ofList {n : Nat} (h : ∀ a, (encode a).depth ≤ n) (as : List α) :
    (ofList encode as).depth ≤ n + 1 := by
  refine Nat.succ_le_succ (depthItems_le.mpr ?_)
  exact List.forall_mem_map.mpr fun a _ => h a

theorem depth_ofMap {n : Nat} (h : ∀ a, (encode a).depth ≤ n) (m : SortedMap α) :
    (ofMap encode m).depth ≤ n + 1 := by
  refine Nat.succ_le_succ (depthMembers_le.mpr ?_)
  exact List.forall_mem_map.mpr fun e _ => h e.2

/-- Members in key order are among those that were put in. -/
theorem depthMembers_insertEntry {entries : List (String × Value)} {key : String} {v : Value} {n : Nat}
    (h : depthMembers entries ≤ n) (hv : v.depth ≤ n) : depthMembers (insertEntry key v entries) ≤ n := by
  rw [depthMembers_le] at h ⊢
  intro m hm
  rcases mem_insertEntry hm with rfl | hm
  · exact hv
  · exact h m hm

mutual

/-- Sorting the members makes a value no deeper. -/
theorem depth_canonical : (v : Value) → v.canonical.depth ≤ v.depth
  | .null | .bool _ | .number _ | .string _ => Nat.le_refl _
  | .array items => Nat.succ_le_succ (depth_canonicalItems items)
  | .object members =>
    Nat.succ_le_succ (depth_canonicalMembers members (Nat.zero_le _) (Nat.le_refl _))

theorem depth_canonicalItems : (items : List Value) → depthItems (canonicalItems items) ≤ depthItems items
  | [] => Nat.le_refl _
  | item :: rest => by
    have hitem := depth_canonical item
    have hrest := depth_canonicalItems rest
    simp only [canonicalItems, depthItems]
    omega

theorem depth_canonicalMembers : (members : List (String × Value)) → {entries : List (String × Value)} →
    {n : Nat} → depthMembers entries ≤ n → depthMembers members ≤ n →
    depthMembers (canonicalMembers entries members) ≤ n
  | [], _, _, h, _ => h
  | (key, member) :: rest, _, n, h, hm => by
    have hmember := depth_canonical member
    simp only [depthMembers, Nat.max_le] at hm
    exact depth_canonicalMembers rest (depthMembers_insertEntry h (Nat.le_trans hmember hm.1)) hm.2

end

end Value

namespace Doc

open Value

mutual

/-- A value that fits into the room is accepted. -/
theorem check_ofValue : (v : Value) → ∀ room, v.depth ≤ room → (ofValue v).check room = .ok ()
  | .null, _, _ | .bool _, _, _ | .number _, _, _ | .string _, _, _ => rfl
  | .array items, room + 1, h => by
    rw [ofValue, check, checkItems_ofItems items room (Nat.le_of_succ_le_succ h)]
    rfl
  | .object members, room + 1, h => by
    rw [ofValue, check, checkMembers_ofMembers members room (Nat.le_of_succ_le_succ h)]
    rfl

theorem checkItems_ofItems : (items : List Value) → ∀ room, depthItems items ≤ room →
    checkItems room (ofItems items) = .ok ()
  | [], _, _ => rfl
  | item :: rest, room, h => by
    simp only [depthItems, Nat.max_le] at h
    rw [ofItems, checkItems, check_ofValue item room h.1]
    exact checkItems_ofItems rest room h.2

theorem checkMembers_ofMembers : (members : List (String × Value)) → ∀ room,
    depthMembers members ≤ room → checkMembers room (ofMembers members) = .ok ()
  | [], _, _ => rfl
  | (key, member) :: rest, room, h => by
    simp only [depthMembers, Nat.max_le] at h
    rw [ofMembers, checkMembers, check_ofValue member room h.1]
    exact checkMembers_ofMembers rest room h.2

end

mutual

/-- What is accepted has a value that fits into the room. -/
theorem depth_toValue : (d : Doc) → ∀ room, d.check room = .ok () → d.toValue.depth ≤ room
  | .null, _, _ | .bool _, _, _ | .number (some _), _, _ | .string (some _), _, _ => Nat.zero_le _
  | .number none, _, h | .string none, _, h | .broken _, _, h => nomatch h
  | .array _ _, 0, h | .object _ _, 0, h => nomatch h
  | .array items _, room + 1, h => by
    obtain ⟨_, hitems, _⟩ := bind_eq_ok.mp h
    exact Nat.succ_le_succ (depthItems_toItems items room hitems)
  | .object members _, room + 1, h => by
    obtain ⟨_, hmembers, _⟩ := bind_eq_ok.mp h
    exact Nat.succ_le_succ (depthMembers_toMembers members room hmembers)

theorem depthItems_toItems : (items : List Doc) → ∀ room, checkItems room items = .ok () →
    depthItems (toItems items) ≤ room
  | [], _, _ => Nat.zero_le _
  | item :: rest, room, h => by
    obtain ⟨_, hitem, hrest⟩ := bind_eq_ok.mp h
    exact Nat.max_le.mpr ⟨depth_toValue item room hitem, depthItems_toItems rest room hrest⟩

theorem depthMembers_toMembers : (members : List (Option String × Doc)) → ∀ room,
    checkMembers room members = .ok () → depthMembers (toMembers members) ≤ room
  | [], _, _ => Nat.zero_le _
  | (none, _) :: _, _, h => nomatch h
  | (some key, member) :: rest, room, h => by
    obtain ⟨_, hmember, hrest⟩ := bind_eq_ok.mp h
    exact Nat.max_le.mpr ⟨depth_toValue member room hmember, depthMembers_toMembers rest room hrest⟩

end

theorem check_of_checkItems {room : Nat} {items : List Doc} (h : checkItems room items = .ok ()) :
    ∀ d ∈ items, d.check room = .ok () := by
  induction items with
  | nil => exact List.forall_mem_nil _
  | cons item rest ih =>
    obtain ⟨_, hitem, hrest⟩ := bind_eq_ok.mp h
    exact List.forall_mem_cons.mpr ⟨hitem, ih hrest⟩

end Doc

/-! ## Tagged records -/

variable {tag : String} {names : List String}

/-- Members beside the tag are kept as they stand, if they are not nested too deep. -/
theorem tagOfMembers_body {members : List (String × Value)} (hkeys : ∀ m ∈ members, m.1 ≠ tag)
    (hdepth : ∀ m ∈ members, m.2.depth ≤ maxDepth - 1) (stop : Option Break) (found : Option String)
    (body rest : List (Option String × Doc)) :
    tagOfMembers tag names stop found body (ofMembers members ++ rest) =
      tagOfMembers tag names stop found (body ++ ofMembers members) rest := by
  induction members generalizing body with
  | nil => rw [ofMembers, List.nil_append, List.append_nil]
  | cons m more ih =>
    have hkey := hkeys m List.mem_cons_self
    have hcheck := check_ofValue m.2 _ (hdepth m List.mem_cons_self)
    simp only [ofMembers, List.cons_append, tagOfMembers, if_neg hkey, hcheck]
    rw [ih (fun m hm => hkeys m (List.mem_cons_of_mem _ hm)) fun m hm => hdepth m (List.mem_cons_of_mem _ hm),
      List.append_assoc, List.singleton_append]

theorem decodeTag_ofValue {name : String} (hname : name ∈ names) :
    decodeTag names (ofValue (.string name)) = .ok name := by
  rw [decodeTag, reads_string _, ok_bind, if_pos hname]

/-- A record is taken apart again, wherever its tag stands. -/
theorem decodeTagged_ofMembers {name : String} {before behind : List (String × Value)} (hname : name ∈ names)
    (hkeys : ∀ m ∈ before ++ behind, m.1 ≠ tag) (hdepth : ∀ m ∈ before ++ behind, m.2.depth ≤ maxDepth - 1) :
    decodeTagged tag names (ofValue (.object (before ++ (tag, .string name) :: behind))) =
      .ok (name, ofValue (.object (before ++ behind))) := by
  rw [List.forall_mem_append] at hkeys hdepth
  have hbehind : tagOfMembers tag names none (some name) (ofMembers before) (ofMembers behind) =
      .ok (name, ofMembers before ++ ofMembers behind) := by
    rw [← List.append_nil (ofMembers behind), tagOfMembers_body hkeys.2 hdepth.2, List.append_nil]
    rfl
  have htag := decodeTag_ofValue hname
  rw [ofValue, ofMembers_append, ofMembers, decodeTagged, tagOfMembers_body hkeys.1 hdepth.1, List.nil_append,
    tagOfMembers, if_pos rfl]
  simp only [Option.isSome_none, Bool.false_eq_true, if_false, htag, ok_bind, hbehind]
  rw [ofValue, ofMembers_append]
  rfl

/-- A record that was written with its tag in front is taken apart again. -/
theorem decodeTagged_ofValue {name : String} {members : List (String × Value)} (hname : name ∈ names)
    (hkeys : ∀ m ∈ members, m.1 ≠ tag) (hdepth : ∀ m ∈ members, m.2.depth ≤ maxDepth - 1) :
    decodeTagged tag names (ofValue (.object ((tag, .string name) :: members))) =
      .ok (name, ofValue (.object members)) :=
  @decodeTagged_ofMembers _ _ _ [] _ hname hkeys hdepth

theorem check_of_tagOfMembers {stop : Option Break} {found : Option String} {name : String}
    {members body body' : List (Option String × Doc)}
    (h : tagOfMembers tag names stop found body members = .ok (name, body'))
    (hbody : ∀ m ∈ body, m.2.check (maxDepth - 1) = .ok ()) :
    ∀ m ∈ body', m.2.check (maxDepth - 1) = .ok () := by
  induction members generalizing found body with
  | nil =>
    rw [tagOfMembers.eq_def] at h
    simp only at h
    split at h <;> cases h
    exact hbody
  | cons m rest ih =>
    obtain ⟨_ | key, member⟩ := m
    · cases h
    · rw [tagOfMembers] at h
      split at h
      · split at h
        · cases h
        · obtain ⟨_, _, h⟩ := bind_eq_ok.mp h
          exact ih h hbody
      · split at h
        · cases h
        · rename_i hcheck
          refine ih h fun m hm => ?_
          rcases List.mem_append.mp hm with hm | hm
          · exact hbody m hm
          · rw [List.mem_singleton.mp hm]
            exact hcheck

/-- The body of a tagged record has only parts that fit into the room that a reader has. -/
theorem check_of_decodeTagged {d body : Doc} {name : String}
    (h : decodeTagged tag names d = .ok (name, body)) :
    ∀ p ∈ body.parts, p.check (maxDepth - 1) = .ok () := by
  rw [decodeTagged.eq_def] at h
  split at h
  · obtain ⟨⟨_, members⟩, hmembers, h⟩ := bind_eq_ok.mp h
    cases h
    exact List.forall_mem_map.mpr (check_of_tagOfMembers hmembers (List.forall_mem_nil _))
  · cases h
  · cases h
  · obtain ⟨_, _, h⟩ := bind_eq_ok.mp h
    split at h
    · cases h
    · cases h
    case h_3 hitems _ =>
      cases h
      exact check_of_checkItems hitems
  · cases h

end SessionTrail.Json

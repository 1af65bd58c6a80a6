import Mathlib.Data.List.Induction
import SessionTrail.Proofs.Parts
import SessionTrail.Proofs.Rescan

/-!
# Identifiers of sessions and their texts

An identifier is read from its 32 hexadecimal digits, of either case, in four styles: the digits alone, in
groups with hyphens, these in braces, or behind a lead. No other text is read (`texts_are_read_exactly`), so
two texts name one session exactly if their digits agree but for case.
-/
namespace SessionTrail

open Json Doc

/-! ## Digits of either case -/

theorem hexValue?_ascii : ∀ (n : Fin 128) (value : Fin 16),
    hexValue? (Char.ofNat n) = some value.val ↔ (Char.ofNat n).toLower = hexDigit value.val := by
  decide +kernel

theorem hexDigit_ascii : ∀ value : Fin 16, (hexDigit value.val).toNat < 128 := by decide

theorem toLower_of_le {c : Char} (h : 128 ≤ c.toNat) : c.toLower = c := by
  have hupper : ¬(c.val ≥ 'A'.val ∧ c.val ≤ 'Z'.val) := by
    rintro ⟨-, hle⟩
    have hle : c.toNat ≤ 90 := UInt32.le_iff_toNat_le.mp hle
    omega
  exact dif_neg hupper

theorem hexValue?_lt {c : Char} {value : Nat} (h : hexValue? c = some value) :
    value < 16 ∧ c.toNat < 128 := by
  have hle : ∀ a b : Char, a ≤ b ↔ a.toNat ≤ b.toNat := fun a b => UInt32.le_iff_toNat_le
  have hbounds : ('0'.toNat, '9'.toNat, 'a'.toNat, 'f'.toNat, 'A'.toNat, 'F'.toNat) =
      (48, 57, 97, 102, 65, 70) := rfl
  simp only [Prod.mk.injEq] at hbounds
  simp only [hexValue?, hle] at h
  split at h
  · cases h
    omega
  split at h
  · cases h
    omega
  split at h
  · cases h
    omega
  · cases h

/-- A hexadecimal digit is one in lower case. -/
theorem hexValue?_eq_some_iff {c : Char} {value : Nat} :
    hexValue? c = some value ↔ value < 16 ∧ c.toLower = hexDigit value := by
  constructor
  · intro h
    obtain ⟨hvalue, hc⟩ := hexValue?_lt h
    have hascii := hexValue?_ascii ⟨c.toNat, hc⟩ ⟨value, hvalue⟩
    rw [Char.ofNat_toNat] at hascii
    exact ⟨hvalue, hascii.mp h⟩
  · rintro ⟨hvalue, hlower⟩
    have hc : c.toNat < 128 := by
      by_contra hge
      have hdigit := hexDigit_ascii ⟨value, hvalue⟩
      rw [toLower_of_le (Nat.not_lt.mp hge)] at hlower
      exact hge (hlower ▸ hdigit)
    have hascii := hexValue?_ascii ⟨c.toNat, hc⟩ ⟨value, hvalue⟩
    rw [Char.ofNat_toNat] at hascii
    exact hascii.mpr hlower

/-- Hexadecimal digits write a number if they are its digits in lower case. -/
theorem hexNumber?_eq_some_iff {digits : List Char} {n : Nat} :
    hexNumber? digits = some n ↔
      n < 16 ^ digits.length ∧ digits.map Char.toLower = hexDigits digits.length n := by
  induction digits using List.reverseRecOn generalizing n with
  | nil =>
    simp only [hexNumber?, List.foldlM_nil, List.length_nil, Nat.pow_zero, List.map_nil, hexDigits, and_true,
      Option.pure_def, Option.some.injEq]
    omega
  | append_singleton digits c ih =>
    -- The last digit is the remainder by 16, and those before it write the quotient.
    rw [hexNumber?_append_singleton, List.length_append, List.length_singleton, List.map_append, hexDigits,
      Nat.pow_succ]
    simp only [Option.bind_eq_some_iff, appendHex, Option.map_eq_some_iff, ih, hexValue?_eq_some_iff]
    constructor
    · rintro ⟨m, ⟨hm, hdigits⟩, value, ⟨hvalue, hc⟩, rfl⟩
      have hdiv : (m * 16 + value) / 16 = m := by omega
      have hmod : (m * 16 + value) % 16 = value := by omega
      rw [hdiv, hmod, hdigits, ← hc]
      exact ⟨by omega, rfl⟩
    · rintro ⟨hn, hdigits⟩
      obtain ⟨hdigits, hc⟩ := List.append_inj' hdigits rfl
      refine ⟨n / 16, ⟨by omega, hdigits⟩, n % 16, ⟨by omega, (List.cons_eq_cons.mp hc).1⟩, by omega⟩

/-! ## Styles -/

namespace Uuid

/-- How the digits of an identifier are written. The lead of a resource name may be in any case. -/
inductive Style where
  | plain
  | hyphenated
  | braced
  | named (lead : List Char) (hlead : lead.map Char.toLower = urnLead)

/-- The text of digits. -/
def Style.chars (digits : List Char) : Style → List Char
  | .plain => digits
  | .hyphenated => hyphenate groupSizes digits
  | .braced => '\x7b' :: hyphenate groupSizes digits ++ ['\x7d']
  | .named lead _ => lead ++ hyphenate groupSizes digits

def Style.text (style : Style) (digits : List Char) : String := String.ofList (style.chars digits)

/-- A text is an identifier, written in one of the styles with digits of either case. -/
def IsWritten (u : Uuid) (s : String) : Prop :=
  ∃ (style : Style) (digits : List Char), digits.map Char.toLower = hexDigits 32 u.bits.toNat ∧
    s = style.text digits

/-- Groups with hyphens between them are what they are cut from. -/
theorem eq_of_unhyphenate? {sizes : List Nat} {cs digits : List Char}
    (h : unhyphenate? sizes cs = some digits) :
    digits.length = sizes.sum ∧ cs = hyphenate sizes digits := by
  induction sizes generalizing cs digits with
  | nil =>
    rw [unhyphenate?] at h
    split at h
    case isTrue hempty =>
      cases h
      exact ⟨rfl, List.isEmpty_iff.mp hempty⟩
    case isFalse => cases h
  | cons size sizes ih =>
    cases sizes with
    | nil =>
      rw [unhyphenate?] at h
      split at h
      case isTrue hlen =>
        cases h
        exact ⟨hlen, (List.take_of_length_le (Nat.le_of_eq hlen)).symm⟩
      case isFalse => cases h
    | cons next sizes =>
      simp only [unhyphenate?] at h
      split at h
      case h_1 rest hdrop =>
        obtain ⟨groups, hgroups, rfl⟩ := Option.map_eq_some_iff.mp h
        obtain ⟨hlen, hrest⟩ := ih hgroups
        have hshort : (cs.take size).length = size := by
          have hlong := congrArg List.length hdrop
          rw [List.length_drop, List.length_cons] at hlong
          rw [List.length_take]
          omega
        refine ⟨by simp only [List.length_append, hshort, hlen, List.sum_cons], ?_⟩
        rw [hyphenate, List.take_left' hshort, List.drop_left' hshort, ← hrest, ← hdrop,
          List.take_append_drop]
        exact List.cons_ne_nil _ _
      case h_2 => cases h

/-- What is found at the places of the digits stands there. -/
theorem eq_of_digits? {cs digits : List Char} (h : digits? cs = some digits) :
    digits.length = 32 ∧ ∃ style : Style, cs = style.chars digits := by
  have hsizes : groupSizes.sum = 32 := rfl
  unfold digits? at h
  split at h
  case isTrue hlen =>
    cases h
    exact ⟨hlen, .plain, rfl⟩
  split at h
  case h_1 rest =>
    split at h
    case isTrue hlast =>
      obtain ⟨inner, rfl⟩ := List.getLast?_eq_some_iff.mp hlast
      rw [List.dropLast_concat] at h
      obtain ⟨hlen, hrest⟩ := eq_of_unhyphenate? h
      exact ⟨hlen.trans hsizes, .braced, by rw [Style.chars, ← hrest]; rfl⟩
    case isFalse => cases h
  case h_2 =>
    split at h
    case isTrue hlead =>
      obtain ⟨hlen, hrest⟩ := eq_of_unhyphenate? h
      exact ⟨hlen.trans hsizes, .named _ hlead, by rw [Style.chars, ← hrest, List.take_append_drop]⟩
    case isFalse =>
      obtain ⟨hlen, hrest⟩ := eq_of_unhyphenate? h
      exact ⟨hlen.trans hsizes, .hyphenated, hrest⟩

/-- Digits that lead neither a brace nor a name are found in every style. -/
theorem digits?_chars {digits : List Char} (hlen : digits.length = 32)
    (hlead : ∀ c ∈ digits, c.toLower ≠ 'u' ∧ c ≠ '\x7b') (style : Style) :
    digits? (style.chars digits) = some digits := by
  have hgroups := length_groups hlen
  have hdone := unhyphenate?_groups hlen
  cases style with
  | plain =>
    unfold Style.chars digits?
    exact if_pos hlen
  | hyphenated => exact digits?_hyphenate hlen hlead
  | braced =>
    rw [Style.chars, List.cons_append, digits?, if_neg (by simp [hgroups])]
    simp only [List.getLast?_concat, List.dropLast_concat, if_true, hdone]
  | named lead h =>
    have hlength : lead.length = urnLead.length := by rw [← h, List.length_map]
    have hbrace : ∀ rest, lead ++ hyphenate groupSizes digits ≠ '\x7b' :: rest := by
      intro rest heq
      cases lead with
      | nil => cases hlength
      | cons c cs =>
        cases heq
        cases h
    unfold Style.chars digits?
    rw [if_neg (by rw [List.length_append, hgroups, hlength]; decide)]
    split
    case h_1 rest heq => exact absurd heq (hbrace rest)
    case h_2 => rw [List.take_left' hlength, List.drop_left' hlength, if_pos h, hdone]

theorem length_of_lower {digits : List Char} {n : Nat} (h : digits.map Char.toLower = hexDigits 32 n) :
    digits.length = 32 := by
  rw [← List.length_map (f := Char.toLower), h, length_hexDigits]

theorem leads_nothing {digits : List Char} {n : Nat} (h : digits.map Char.toLower = hexDigits 32 n) :
    ∀ c ∈ digits, c.toLower ≠ 'u' ∧ c ≠ '\x7b' := by
  intro c hc
  have hlower : c.toLower ∈ hexDigits 32 n := h ▸ List.mem_map_of_mem hc
  obtain ⟨k, hk⟩ := exists_of_mem_hexDigits hlower
  refine ⟨fun hu => (hexDigit_leads_nothing k).1 ?_, fun hbrace => (hexDigit_leads_nothing k).2 ?_⟩
  · rw [← hk, hu]
    rfl
  · rw [← hk, hbrace]
    rfl

/-- A text is read as an identifier if it is one of its texts, and only then. -/
theorem ofString?_eq_some_iff {s : String} {u : Uuid} : ofString? s = some u ↔ u.IsWritten s := by
  constructor
  · intro h
    obtain ⟨digits, hdigits, h⟩ := Option.bind_eq_some_iff.mp h
    obtain ⟨n, hn, h⟩ := Option.bind_eq_some_iff.mp h
    cases h
    obtain ⟨hlen, style, hstyle⟩ := eq_of_digits? hdigits
    obtain ⟨hbound, hlower⟩ := hexNumber?_eq_some_iff.mp hn
    have hbits : (BitVec.ofNat 128 n).toNat = n := by
      rw [BitVec.toNat_ofNat, Nat.mod_eq_of_lt (by rw [hlen] at hbound; exact hbound)]
    exact ⟨style, digits, by rw [hlower, hlen, hbits], by rw [Style.text, ← hstyle, String.ofList_toList]⟩
  · rintro ⟨style, digits, hlower, rfl⟩
    have hlen := length_of_lower hlower
    have hnumber : hexNumber? digits = some u.bits.toNat :=
      hexNumber?_eq_some_iff.mpr ⟨by rw [hlen]; exact u.bits.isLt, by rw [hlen, hlower]⟩
    rw [ofString?, Style.text, String.toList_ofList, digits?_chars hlen (leads_nothing hlower)]
    simp only [Option.bind_eq_bind, Option.bind_some, hnumber, BitVec.ofNat_toNat, BitVec.setWidth_eq]
    rfl

/-- The number of characters beside the digits. -/
def Style.extra : Style → Nat
  | .plain => 0
  | .hyphenated => 4
  | .braced => 6
  | .named _ _ => 13

theorem Style.length_chars {digits : List Char} (h : digits.length = 32) (style : Style) :
    (style.chars digits).length = 32 + style.extra := by
  have hgroups := length_groups h
  cases style with
  | plain => exact h
  | hyphenated => exact hgroups
  | braced => simp [chars, extra, hgroups]
  | named lead hlead =>
    have hlength : lead.length = urnLead.length := by rw [← hlead, List.length_map]
    rw [chars, List.length_append, hgroups, hlength]
    rfl

theorem hyphenate_inj {digits digits' : List Char} (hlen : digits.length = 32) (hlen' : digits'.length = 32)
    (h : hyphenate groupSizes digits = hyphenate groupSizes digits') : digits = digits' := by
  have hdone := unhyphenate?_groups hlen
  rw [h, unhyphenate?_groups hlen'] at hdone
  exact (Option.some.inj hdone).symm

/-- One text has one style, which its length tells, and so it has one row of digits. -/
theorem Style.chars_inj {digits digits' : List Char} (hlen : digits.length = 32) (hlen' : digits'.length = 32)
    {style style' : Style} (h : style.chars digits = style'.chars digits') : digits = digits' := by
  have hextra : style.extra = style'.extra := by
    have hlength := congrArg List.length h
    rw [length_chars hlen, length_chars hlen'] at hlength
    omega
  -- Two styles add different numbers of characters, so only the four cases of one style are left.
  cases style <;> cases style' <;> try cases hextra
  case plain => exact h
  case hyphenated => exact hyphenate_inj hlen hlen' h
  case braced => exact hyphenate_inj hlen hlen' (List.append_cancel_right (List.cons_eq_cons.mp h).2)
  case named lead hlead lead' hlead' =>
    have hlength : lead.length = lead'.length := by
      rw [← List.length_map (f := Char.toLower), hlead, ← hlead', List.length_map]
    exact hyphenate_inj hlen hlen' (List.append_inj h hlength).2

/-- The digits of an identifier are those in which its text is written, but for case. -/
theorem lower_digits {style : Style} {digits : List Char} {u : Uuid} (hlen : digits.length = 32)
    (h : ofString? (style.text digits) = some u) : digits.map Char.toLower = hexDigits 32 u.bits.toNat := by
  obtain ⟨style', digits', hlower, htext⟩ := ofString?_eq_some_iff.mp h
  rw [Style.chars_inj hlen (length_of_lower hlower) (String.ofList_injective htext), hlower]

theorem eq_of_hexDigits {u u' : Uuid} (h : hexDigits 32 u.bits.toNat = hexDigits 32 u'.bits.toNat) :
    u = u' := by
  have hread : some u.text = some u'.text := by rw [text, text, h]
  have htext := congrArg (Option.bind · ofString?) hread
  simpa only [Option.bind_some, ofString?_text, Option.some.injEq] using htext

end Uuid

/-! ## Sessions -/

namespace SessionId

open Uuid

theorem ofString?_eq_some_iff {s : String} {id : SessionId} :
    ofString? s = some id ↔ Uuid.ofString? s = some id.uuid := by
  simp only [ofString?, Option.map_eq_some_iff]
  constructor
  · rintro ⟨u, hu, rfl⟩
    exact hu
  · exact fun h => ⟨id.uuid, h, rfl⟩

/-- A string is decoded as the identifier that its content names. -/
theorem decode_string {s : String} {id : SessionId} :
    decode (ofValue (.string s)) = .ok id ↔ ofString? s = some id := by
  rw [decode, Uuid.decode, reads_string, ok_bind, ofString?]
  cases Uuid.ofString? s with
  | none =>
    constructor <;> intro h <;> cases h
  | some u =>
    constructor <;> intro h <;> cases h <;> rfl

/-- A text is read as an identifier if it writes its 32 digits, in any case, in one of the four styles, and
only then; the identifier's own text is the one with hyphens and in lower case. So texts name one session if
their digits agree but for case, and only then. A JSON string is decoded as its content is read. -/
theorem texts_are_read_exactly :
    (∀ (s : String) (id : SessionId), ofString? s = some id ↔ id.uuid.IsWritten s) ∧
    (∀ id : SessionId, ofString? id.text = some id) ∧
    (∀ (style : Style) (digits : List Char) (id : SessionId), digits.length = 32 →
      ofString? (style.text digits) = some id →
      id.text = Style.hyphenated.text (digits.map Char.toLower)) ∧
    (∀ (style style' : Style) (digits digits' : List Char) (id id' : SessionId),
      digits.length = 32 → digits'.length = 32 →
      ofString? (style.text digits) = some id → ofString? (style'.text digits') = some id' →
      (id = id' ↔ digits.map Char.toLower = digits'.map Char.toLower)) ∧
    (∀ (text s : String) (id : SessionId), Spells text (.string s) →
      (decodeText (fun _ => decode) text = .ok id ↔ ofString? s = some id)) ∧
    ∀ (s : String) (id : SessionId),
      decodeValue (fun _ => decode) (.string s) = .ok id ↔ ofString? s = some id := by
  refine ⟨fun s id => ofString?_eq_some_iff.trans Uuid.ofString?_eq_some_iff,
    fun id => ofString?_eq_some_iff.mpr (Uuid.ofString?_text id.uuid), fun style digits id hlen h => ?_,
    fun style style' digits digits' id id' hlen hlen' h h' => ?_, fun text s id htext => ?_,
    fun s id => decode_string⟩
  · have hlower := lower_digits hlen (ofString?_eq_some_iff.mp h)
    rw [SessionId.text, Uuid.text, Style.text, Style.chars, hlower]
  · rw [lower_digits hlen (ofString?_eq_some_iff.mp h), lower_digits hlen' (ofString?_eq_some_iff.mp h')]
    constructor
    · rintro rfl
      rfl
    · intro hdigits
      obtain ⟨u⟩ := id
      exact congrArg SessionId.mk (eq_of_hexDigits hdigits)
  · rw [decodeText_of_spells _ htext]
    exact decode_string

/-- A session's identifier behind a lead in capitals. -/
def capitalText : String := "URN:UUID:0190a3c4-7b1e-7c00-8000-0123456789ab"

/-- The session that it names. -/
def capital : SessionId := ⟨⟨0x0190a3c47b1e7c0080000123456789ab⟩⟩

/-- Not only a lead in lower case is taken off. -/
theorem capital_lead_is_read :
    ofString? capitalText = some capital ∧
      ∀ digits : List Char, digits.map Char.toLower = hexDigits 32 capital.uuid.bits.toNat →
        capitalText.toList ∉ [digits, hyphenate groupSizes digits,
          '\x7b' :: hyphenate groupSizes digits ++ ['\x7d'], urnLead ++ hyphenate groupSizes digits] := by
  refine ⟨by decide +kernel, fun digits hdigits hm => ?_⟩
  have hlen := length_of_lower hdigits
  have hgroups := length_groups hlen
  have hlength : capitalText.toList.length = 45 := by decide
  simp only [List.mem_cons, List.not_mem_nil, or_false] at hm
  rcases hm with h | h | h | h <;> rw [h] at hlength
  case inl => omega
  case inr.inl => omega
  case inr.inr.inl => simp [hgroups] at hlength
  case inr.inr.inr =>
    have hfirst : capitalText.toList.head? = some 'U' := by decide
    rw [h] at hfirst
    cases hfirst

/-- The digits of the session in one mixture of cases and in another. -/
def mixedDigits : List Char := "0190A3C47B1e7c0080000123456789AB".toList

def otherDigits : List Char := "0190a3c47b1E7C0080000123456789ab".toList

theorem capital_in_other_styles :
    ofString? "\x7b0190A3C4-7B1e-7c00-8000-0123456789AB\x7d" = some capital ∧
      capital.text = "0190a3c4-7b1e-7c00-8000-0123456789ab" ∧ ofString? capital.text = some capital ∧
      mixedDigits.map Char.toLower = otherDigits.map Char.toLower ∧
      decodeText (fun _ => decode) "\t\"\\u0030190a3c47b1E7C0080000123456789ab\"" = .ok capital ∧
      decodeValue (fun _ => decode) (.string "0190a3c47b1E7C0080000123456789ab") = .ok capital := by
  obtain ⟨hread, hback, htext, hsame, hjson, hstored⟩ := texts_are_read_exactly
  have hbraced : ofString? (Style.braced.text mixedDigits) = some capital :=
    (hread _ _).mpr ⟨.braced, mixedDigits, by decide +kernel, rfl⟩
  have hplain : ofString? (Style.plain.text otherDigits) = some capital :=
    (hread _ _).mpr ⟨.plain, otherDigits, by decide +kernel, rfl⟩
  have hcontent : Style.plain.text otherDigits = "0190a3c47b1E7C0080000123456789ab" := by decide +kernel
  rw [hcontent] at hplain
  have hspells : Spells "\t\"\\u0030190a3c47b1E7C0080000123456789ab\""
      (.string "0190a3c47b1E7C0080000123456789ab") :=
    ⟨[.tab], [],
      .string (.unit '0' '0' '3' '0' 0x30 (by decide) :: strokesOf "190a3c47b1E7C0080000123456789ab"),
      by decide +kernel, congrArg Doc.string (by decide +kernel)⟩
  refine ⟨?_, ?_, hback capital, ?_, (hjson _ _ _ hspells).mpr hplain, (hstored _ _).mpr hplain⟩
  · rw [← hbraced]
    decide +kernel
  · rw [htext .braced mixedDigits capital (by decide) hbraced]
    decide +kernel
  · exact (hsame .braced .plain mixedDigits otherDigits capital capital (by decide) (by decide) hbraced
      (hcontent.symm ▸ hplain)).mp rfl

end SessionId

end SessionTrail

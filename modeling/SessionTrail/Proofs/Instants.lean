import SessionTrail.Proofs.Numerals
import SessionTrail.Timestamp.Read
import SessionTrail.Uuid

/-!
# Reading times and identifiers that were written

The text of a point in time is read as that point in time, whatever its year and however fine it is, unless
it is a leap second in the midst of a minute: the text of that one is the text of the second that follows
(`Timestamp.ofString?_text`). The text of an identifier is read as that identifier (`Uuid.ofString?_text`).
-/
namespace SessionTrail

open Json

theorem isWhiteSpace_of_isDigit {c : Char} (h : c.isDigit = true) : isWhiteSpace c = false := by
  have hrange : 48 ≤ c.toNat ∧ c.toNat ≤ 57 := by
    simp only [Char.isDigit, Bool.and_eq_true, decide_eq_true_eq, ge_iff_le, UInt32.le_iff_toNat_le] at h
    exact h
  simp only [isWhiteSpace, Bool.or_eq_false_iff, Bool.and_eq_false_iff, decide_eq_false_iff_not]
  omega

namespace Timestamp

/-! ## Fields -/

theorem skipSpace_cons {c : Char} (h : isWhiteSpace c = false) (cs : List Char) :
    skipSpace (c :: cs) = c :: cs := by
  simp [skipSpace, h]

theorem readMark?_cons {mark : Char} (h : isWhiteSpace mark = false) (cs : List Char) :
    readMark? mark (mark :: cs) = some cs := by
  simp [readMark?, skipSpace_cons h]

theorem NoDigit.take {cs : List Char} (h : NoDigit cs) (n : Nat) : NoDigit (cs.take n) := by
  intro c hc
  cases n with
  | zero => simp at hc
  | succ n => cases cs with
    | nil => simp at hc
    | cons d ds => exact h c hc

/-- Digits are read up to where they end, if no more of them stand there than may be read. -/
theorem readDigits?_append {most : Option Nat} {digits rest : List Char}
    (hd : ∀ c ∈ digits, c.isDigit = true) (hne : digits ≠ []) (hr : NoDigit rest)
    (hmost : ∀ m ∈ most, digits.length ≤ m) :
    readDigits? most (digits ++ rest) = some (decimalNumber digits, rest) := by
  have htake : (most.elim (digits ++ rest) (digits ++ rest).take).takeWhile Char.isDigit = digits := by
    cases most with
    | none => exact congrArg Prod.fst (spanDigits_append hd hr)
    | some m =>
      rw [Option.elim_some, List.take_append, List.take_of_length_le (hmost m rfl)]
      exact congrArg Prod.fst (spanDigits_append hd (NoDigit.take hr _))
  simp [readDigits?, htake, hne]

theorem skipSpace_padded (width n : Nat) (rest : List Char) :
    skipSpace (padded width n ++ rest) = padded width n ++ rest := by
  obtain ⟨c, cs, hp, hc⟩ := exists_padded_eq_cons width n
  rw [hp]
  exact skipSpace_cons (isWhiteSpace_of_isDigit hc) _

theorem readField?_padded {n : Nat} (h : n < 100) {rest : List Char} (hr : NoDigit rest) :
    readField? (padded 2 n ++ rest) = some (n, rest) := by
  have hlen : (padded 2 n).length = 2 := length_padded (by decide) h
  rw [readField?, skipSpace_padded, readDigits?_append (fun _ => isDigit_of_mem_padded)
    (padded_ne_nil 2 n) hr (by simp [hlen]), decimalNumber_padded]

/-! ## Dates -/

theorem readYear?_padded (year : Nat) (h : year ≤ 9999) {rest : List Char} (hr : NoDigit rest) :
    readYear? (padded 4 year ++ rest) = some ((year : Int), rest) := by
  have hlen : (padded 4 year).length = 4 := length_padded (by decide) (by omega)
  have hdigits : readDigits? (some 4) (padded 4 year ++ rest) = some (year, rest) := by
    rw [readDigits?_append (fun _ => isDigit_of_mem_padded) (padded_ne_nil 4 year) hr (by simp [hlen]),
      decimalNumber_padded]
  obtain ⟨c, cs, hp, hc⟩ := exists_padded_eq_cons 4 year
  rw [readYear?, skipSpace_padded]
  -- The first character is a digit, so it is neither sign.
  split
  case h_1 heq => rw [hp] at heq; cases heq; cases hc
  case h_2 heq => rw [hp] at heq; cases heq; cases hc
  case h_3 => rw [hdigits]; rfl

theorem readYear?_sign (year : Nat) {rest : List Char} (hr : NoDigit rest) :
    readYear? ('-' :: (padded 4 year ++ rest)) = some (-(year : Int), rest) ∧
      readYear? ('+' :: (padded 4 year ++ rest)) = some ((year : Int), rest) := by
  have hdigits : readDigits? none (padded 4 year ++ rest) = some (year, rest) := by
    rw [readDigits?_append (fun _ => isDigit_of_mem_padded) (padded_ne_nil 4 year) hr (by simp),
      decimalNumber_padded]
  constructor
  · rw [readYear?, skipSpace_cons rfl]
    simp only [hdigits, Option.map_some]
  · rw [readYear?, skipSpace_cons rfl]
    simp only [hdigits, Option.map_some]

theorem readDate?_chars (d : Date) {rest : List Char} (hr : NoDigit rest) :
    readDate? (d.chars ++ rest) = some (d, rest) := by
  obtain ⟨year, month, day, hyear, hmonth, hday⟩ := d
  have hdays : daysInMonth year month ≤ 31 := by
    unfold daysInMonth
    split <;> split <;> omega
  have hfields : Date.ofFields? year month day = some ⟨year, month, day, hyear, hmonth, hday⟩ :=
    dif_pos ⟨hyear, hmonth, hday⟩
  have hmark : NoDigit ('-' :: (padded 2 month ++ '-' :: (padded 2 day ++ rest))) := by
    rintro c ⟨⟩
    rfl
  have hmark' : NoDigit ('-' :: (padded 2 day ++ rest)) := by
    rintro c ⟨⟩
    rfl
  have hstart : readYear? (Date.chars ⟨year, month, day, hyear, hmonth, hday⟩ ++ rest) =
      some (year, '-' :: (padded 2 month ++ '-' :: (padded 2 day ++ rest))) := by
    simp only [Date.chars]
    split
    · have h := readYear?_padded year.toNat (by omega) hmark
      rw [Int.toNat_of_nonneg (by omega)] at h
      simpa using h
    · have h := readYear?_sign year.natAbs hmark
      split
      · rw [show (-(year.natAbs : Int)) = year by omega] at h
        simpa using h.1
      · rw [show (year.natAbs : Int) = year by omega] at h
        simpa using h.2
  rw [readDate?, hstart]
  simp only [Option.bind_eq_bind, Option.bind_some, readMark?_cons (show isWhiteSpace '-' = false from rfl)]
  rw [readField?_padded (by omega) hmark']
  simp only [Option.bind_some, readMark?_cons (show isWhiteSpace '-' = false from rfl)]
  rw [readField?_padded (by omega) hr]
  simp [hfields]

/-! ## Times -/

theorem readFraction?_padded {width n : Nat} (hw : 0 < width) (hmost : width ≤ 9) (h : n < 10 ^ width)
    {rest : List Char} (hr : NoDigit rest) :
    readFraction? ('.' :: (padded width n ++ rest)) = some (n * 10 ^ (9 - width), rest) := by
  have hlen : (padded width n).length = width := length_padded hw h
  have hdigits : (padded width n ++ rest).takeWhile Char.isDigit = padded width n :=
    congrArg Prod.fst (spanDigits_append (fun _ => isDigit_of_mem_padded) hr)
  have hkept : (padded width n).take 9 = padded width n :=
    List.take_of_length_le (Nat.le_trans (Nat.le_of_eq hlen) hmost)
  have hrest : (padded width n ++ rest).drop width = rest := List.drop_left' hlen
  simp only [readFraction?, hdigits, hkept, List.isEmpty_iff, padded_ne_nil, if_false,
    decimalNumber_padded, hlen, hrest, Nat.pow_eq]

theorem readFraction?_chars {nano : Nat} (h : nano < 1000000000) {c : Char} (hc : c ≠ '.')
    (hd : c.isDigit = false) (cs : List Char) :
    readFraction? (fractionChars nano ++ c :: cs) = some (nano, c :: cs) := by
  have hr : NoDigit (c :: cs) := by
    rintro c ⟨⟩
    exact hd
  unfold fractionChars
  split
  · subst nano
    rw [List.nil_append, readFraction?]
    rintro rest ⟨⟩
    exact hc rfl
  · split
    · rw [List.cons_append, readFraction?_padded (by decide) (by decide) (by omega) hr]
      simp only [Option.some.injEq, Prod.mk.injEq, and_true]
      omega
    · split
      · rw [List.cons_append, readFraction?_padded (by decide) (by decide) (by omega) hr]
        simp only [Option.some.injEq, Prod.mk.injEq, and_true]
        omega
      · rw [List.cons_append, readFraction?_padded (by decide) (by decide) (by omega) hr]
        simp

theorem minusMinutes?_zero (t : Timestamp) : t.minusMinutes? 0 = some t := by
  obtain ⟨date, hour, minute, second, nano, hh, hm, hs, hn⟩ := t
  have hclock : ((hour : Int) * 60 + minute - 0).toNat = hour * 60 + minute := by omega
  have hhour : (hour * 60 + minute) / 60 = hour := by omega
  have hminute : (hour * 60 + minute) % 60 = minute := by omega
  simp only [minusMinutes?, hclock, hhour, hminute]
  rw [if_neg (by omega), if_pos (by omega), ofFields?, dif_pos ⟨hh, hm, hs, hn⟩]

/-! ## Leap seconds -/

/-- The point in time as which the text of `t` is read: a leap second behind any second but the last of a
minute is taken for the second that follows. -/
def reread (t : Timestamp) : Timestamp :=
  if h : t.IsRegular then t
  else
    { t with
      second := t.second + 1
      nano := t.nano - 1000000000
      second_lt := by
        have hs := t.second_lt
        rw [IsRegular] at h
        omega
      nano_lt := by
        have hn := t.nano_lt
        omega }

theorem reread_of_isRegular {t : Timestamp} (h : t.IsRegular) : t.reread = t := dif_pos h

theorem reread_eq_self {t : Timestamp} : t.reread = t ↔ t.IsRegular := by
  refine ⟨fun h => ?_, reread_of_isRegular⟩
  by_contra hirregular
  have hsecond := congrArg second h
  rw [reread, dif_neg hirregular] at hsecond
  exact absurd hsecond (Nat.succ_ne_self _)

/-- A leap second at the end of a minute, in a distant year. -/
def endOfMinute : Timestamp :=
  ⟨⟨12016, 12, 31, by decide, by decide, by decide⟩, 23, 59, 59, 1500000000, by decide, by decide, by decide,
    by decide⟩

/-- A leap second in the midst of a minute. -/
def midMinute : Timestamp :=
  ⟨⟨2016, 12, 31, by decide, by decide, by decide⟩, 23, 56, 4, 1333333333, by decide, by decide, by decide,
    by decide⟩

/-- The fields that are written for a point in time are those of the point in time as which it is read. -/
theorem ofWritten?_fields (t : Timestamp) :
    ofWritten? t.date t.hour t.minute (t.second + t.nano / 1000000000) (t.nano % 1000000000) =
      some t.reread := by
  obtain ⟨date, hour, minute, second, nano, hh, hm, hs, hn⟩ := t
  have hfraction : nano % 1000000000 < 1000000000 := Nat.mod_lt _ (by decide)
  simp only [ofWritten?, if_pos hfraction]
  by_cases hnano : nano < 1000000000
  · have hquotient : nano / 1000000000 = 0 := Nat.div_eq_of_lt hnano
    rw [hquotient, Nat.add_zero, Nat.mod_eq_of_lt hnano, if_neg (by omega), ofFields?,
      dif_pos ⟨hh, hm, hs, hn⟩, reread_of_isRegular (.inl hnano)]
  · have hquotient : nano / 1000000000 = 1 := by omega
    have hremainder : nano % 1000000000 = nano - 1000000000 := by omega
    rw [hquotient, hremainder]
    by_cases hsecond : second = 59
    · subst hsecond
      have hback : nano - 1000000000 + 1000000000 = nano := by omega
      rw [if_pos rfl, hback, ofFields?, dif_pos ⟨hh, hm, by decide, hn⟩, reread_of_isRegular (.inr rfl)]
    · have hirregular : ¬IsRegular ⟨date, hour, minute, second, nano, hh, hm, hs, hn⟩ :=
        not_or.mpr ⟨hnano, hsecond⟩
      rw [if_neg (by omega), ofFields?, dif_pos ⟨hh, hm, by omega, by omega⟩, reread, dif_neg hirregular]

theorem isRegular_of_ofFields? {date : Date} {hour minute second nano : Nat} {t : Timestamp}
    (h : ofFields? date hour minute second nano = some t) (hr : nano < 1000000000 ∨ second = 59) :
    t.IsRegular := by
  rw [ofFields?] at h
  split at h <;> cases h
  exact hr

theorem isRegular_of_ofWritten? {date : Date} {hour minute second nano : Nat} {t : Timestamp}
    (h : ofWritten? date hour minute second nano = some t) : t.IsRegular := by
  rw [ofWritten?] at h
  split at h
  · rename_i hnano
    split at h
    · exact isRegular_of_ofFields? h (.inr rfl)
    · exact isRegular_of_ofFields? h (.inl hnano)
  · cases h

/-- An earlier time by the clock has the same second. -/
theorem isRegular_of_minusMinutes? {t t' : Timestamp} {minutes : Int}
    (h : t.minusMinutes? minutes = some t') (hr : t.IsRegular) : t'.IsRegular := by
  simp only [minusMinutes?, Option.bind_eq_bind] at h
  split at h
  · obtain ⟨date, -, h⟩ := Option.bind_eq_some_iff.mp h
    exact isRegular_of_ofFields? h hr
  · split at h
    · exact isRegular_of_ofFields? h hr
    · obtain ⟨date, -, h⟩ := Option.bind_eq_some_iff.mp h
      exact isRegular_of_ofFields? h hr

/-- No text is read as a leap second that is not the last second of its minute. -/
theorem isRegular_of_ofString? {s : String} {t : Timestamp} (h : ofString? s = some t) : t.IsRegular := by
  simp only [ofString?, Option.bind_eq_bind, Option.bind_eq_some_iff] at h
  obtain ⟨⟨date, _⟩, -, _, -, ⟨hour, _⟩, -, _, -, ⟨minute, _⟩, -, _, -, ⟨second, _⟩, -, ⟨nano, _⟩, -,
    ⟨ahead, rest⟩, -, h⟩ := h
  simp only at h
  split at h
  · obtain ⟨written, hwritten, h⟩ := Option.bind_eq_some_iff.mp h
    exact isRegular_of_minusMinutes? h (isRegular_of_ofWritten? hwritten)
  · cases h

/-- The text of a point in time is read as that point in time, but for the leap seconds that look like the
second that follows. -/
theorem ofString?_text (t : Timestamp) : ofString? t.text = some t.reread := by
  have hfraction : t.nano % 1000000000 < 1000000000 := Nat.mod_lt _ (by decide)
  have hsecond : t.second + t.nano / 1000000000 < 100 := by
    have hs := t.second_lt
    have hn := t.nano_lt
    omega
  have hh := t.hour_lt
  have hm := t.minute_lt
  have hmark : ∀ c, c.isDigit = false → ∀ cs, NoDigit (c :: cs) := by
    rintro c hc cs _ ⟨⟩
    exact hc
  have hdigits : NoDigit (fractionChars (t.nano % 1000000000) ++ ['Z']) := by
    unfold fractionChars
    split
    · exact hmark 'Z' rfl _
    · split
      · exact hmark '.' rfl _
      · split <;> exact hmark '.' rfl _
  simp only [ofString?, text, String.toList_ofList, List.append_assoc, List.cons_append]
  rw [readDate?_chars t.date (hmark 'T' rfl _)]
  simp only [Option.bind_eq_bind, Option.bind_some, readSeparator?]
  rw [readField?_padded (by omega) (hmark ':' rfl _)]
  simp only [Option.bind_some, readMark?_cons (show isWhiteSpace ':' = false from rfl)]
  rw [readField?_padded (by omega) (hmark ':' rfl _)]
  simp only [Option.bind_some, readMark?_cons (show isWhiteSpace ':' = false from rfl)]
  rw [readField?_padded hsecond hdigits]
  simp only [Option.bind_some, readFraction?_chars hfraction (show 'Z' ≠ '.' by decide) rfl]
  have hzone : readZone? (skipSpace ['Z']) = some (0, []) := by decide
  simp only [hzone, Option.bind_some]
  rw [if_pos (by decide), ofWritten?_fields, Option.bind_some, minusMinutes?_zero]

/-- A point in time shares its text with the one as which it is read. -/
theorem text_reread (t : Timestamp) : t.reread.text = t.text := by
  rw [reread]
  split
  · rfl
  · rename_i h
    rw [IsRegular] at h
    have hn := t.nano_lt
    have hsecond : t.second + 1 + (t.nano - 1000000000) / 1000000000 = t.second + t.nano / 1000000000 := by
      omega
    have hnano : (t.nano - 1000000000) % 1000000000 = t.nano % 1000000000 := by omega
    simp only [text, hsecond, hnano]

example : midMinute.text = "2016-12-31T23:56:05.333333333Z" := by decide +kernel

end Timestamp

namespace Uuid

/-! ## Identifiers -/

theorem length_hyphenate (size : Nat) (sizes : List Nat) (digits : List Char)
    (h : digits.length = size + sizes.sum) :
    (hyphenate (size :: sizes) digits).length = digits.length + sizes.length := by
  induction sizes generalizing size digits with
  | nil =>
    simp only [List.sum_nil, Nat.add_zero] at h
    simp [hyphenate, h]
  | cons next rest ih =>
    simp only [List.sum_cons] at h
    rw [hyphenate, List.length_append, List.length_cons, ih next _ (by rw [List.length_drop]; omega)]
    · simp only [List.length_take, List.length_drop, List.length_cons]
      omega
    · exact List.cons_ne_nil _ _

theorem unhyphenate?_hyphenate (size : Nat) (sizes : List Nat) (digits : List Char)
    (h : digits.length = size + sizes.sum) :
    unhyphenate? (size :: sizes) (hyphenate (size :: sizes) digits) = some digits := by
  induction sizes generalizing size digits with
  | nil =>
    simp only [List.sum_nil, Nat.add_zero] at h
    simp [hyphenate, unhyphenate?, ← h]
  | cons next rest ih =>
    simp only [List.sum_cons] at h
    have htake : (digits.take size).length = size := by
      rw [List.length_take]
      omega
    have hrest := ih next (digits.drop size) (by rw [List.length_drop]; omega)
    simp only [hyphenate, unhyphenate?, List.drop_left' htake, List.take_left' htake, hrest,
      Option.map_some, List.take_append_drop]

theorem length_groups {digits : List Char} (h : digits.length = 32) :
    (hyphenate groupSizes digits).length = 36 := by
  rw [groupSizes, length_hyphenate _ _ _ h, h]
  rfl

theorem unhyphenate?_groups {digits : List Char} (h : digits.length = 32) :
    unhyphenate? groupSizes (hyphenate groupSizes digits) = some digits :=
  unhyphenate?_hyphenate _ _ _ h

theorem exists_of_mem_hexDigits {width n : Nat} {c : Char} (h : c ∈ hexDigits width n) :
    ∃ k : Fin 16, c = hexDigit k.val := by
  induction width generalizing n with
  | zero => cases h
  | succ width ih =>
    rcases List.mem_append.mp h with h | h
    · exact ih h
    · exact ⟨⟨n % 16, Nat.mod_lt n (by decide)⟩, List.mem_singleton.mp h⟩

theorem hexDigit_leads_nothing :
    ∀ k : Fin 16, (hexDigit k.val).toLower ≠ 'u' ∧ hexDigit k.val ≠ '\x7b' := by
  decide

/-- The hyphenated form is told from the others by its length and its first character. -/
theorem digits?_hyphenate {digits : List Char} (hlen : digits.length = 32)
    (hlead : ∀ c ∈ digits, c.toLower ≠ 'u' ∧ c ≠ '\x7b') :
    digits? (hyphenate groupSizes digits) = some digits := by
  have hlength := length_groups hlen
  have hdone := unhyphenate?_groups hlen
  cases digits with
  | nil => cases hlen
  | cons c cs =>
    obtain ⟨hu, hbrace⟩ := hlead c List.mem_cons_self
    obtain ⟨rest, hrest⟩ : ∃ rest, hyphenate groupSizes (c :: cs) = c :: rest := ⟨_, rfl⟩
    rw [hrest] at hlength hdone
    rw [hrest, digits?, if_neg (by omega), if_neg, hdone]
    · intro hlead
      rw [urnLead] at hlead
      simp only [List.length_cons, List.take_succ_cons, List.map_cons, List.cons.injEq] at hlead
      exact hu hlead.1
    · rintro _ heq
      cases heq
      exact hbrace rfl

/-- The text of an identifier is read as that identifier. -/
theorem ofString?_text (u : Uuid) : ofString? u.text = some u := by
  obtain ⟨bits⟩ := u
  have hbits : BitVec.ofNat 128 (bits.toNat % Nat.pow 16 32) = bits := by
    rw [Nat.mod_eq_of_lt (by exact bits.isLt), BitVec.ofNat_toNat, BitVec.setWidth_eq]
  have hlead : ∀ c ∈ hexDigits 32 bits.toNat, c.toLower ≠ 'u' ∧ c ≠ '\x7b' := fun c hc => by
    obtain ⟨k, rfl⟩ := exists_of_mem_hexDigits hc
    exact hexDigit_leads_nothing k
  rw [ofString?, text, String.toList_ofList, digits?_hyphenate (length_hexDigits 32 _) hlead]
  simp only [Option.bind_eq_bind, Option.bind_some, hexNumber?_hexDigits, hbits]
  rfl

end Uuid

end SessionTrail

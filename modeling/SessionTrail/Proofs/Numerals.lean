import Mathlib.Algebra.Ring.Nat
import SessionTrail.Json.Scan

/-!
# Numerals

A number that is written in decimal digits, with or without zeros in front, is read back from them. The
digits of a number other than zero do not begin with a zero, as JSON wants it.
-/
namespace SessionTrail

theorem foldl_digits (digits : List Char) (n : Nat) :
    digits.foldl (fun n c => n * 10 + digitValue c) n = Nat.ofDigitChars 10 digits n := by
  simp only [Nat.ofDigitChars, digitValue, Nat.mul_comm 10]

@[simp] theorem decimalNumber_toDigits (n : Nat) : decimalNumber (Nat.toDigits 10 n) = n := by
  rw [decimalNumber, foldl_digits, Nat.ofDigitChars_ten_toDigits]

/-- Zeros in front change nothing. -/
@[simp] theorem decimalNumber_padded (width n : Nat) : decimalNumber (padded width n) = n := by
  have hzeros : ∀ k, (List.replicate k '0').foldl (fun n c => n * 10 + digitValue c) 0 = 0 := by
    intro k
    induction k with
    | zero => rfl
    | succ k ih => exact ih
  rw [padded, decimalNumber, List.foldl_append, hzeros]
  exact decimalNumber_toDigits n

theorem padded_ne_nil (width n : Nat) : padded width n ≠ [] :=
  List.append_ne_nil_of_right_ne_nil _ Nat.toDigits_ne_nil

theorem isDigit_of_mem_toDigits {n : Nat} {c : Char} (h : c ∈ Nat.toDigits 10 n) : c.isDigit = true :=
  Nat.isDigit_of_mem_toDigits (by decide) (by decide) h

theorem isDigit_of_mem_padded {width n : Nat} {c : Char} (h : c ∈ padded width n) :
    c.isDigit = true := by
  rcases List.mem_append.mp h with h | h
  · rw [List.eq_of_mem_replicate h]
    rfl
  · exact isDigit_of_mem_toDigits h

/-! A numeral begins with a digit. -/

theorem exists_toDigits_eq_cons (n : Nat) :
    ∃ c cs, Nat.toDigits 10 n = c :: cs ∧ c.isDigit = true := by
  obtain ⟨c, cs, h⟩ := List.exists_cons_of_ne_nil (Nat.toDigits_ne_nil (b := 10) (n := n))
  exact ⟨c, cs, h, isDigit_of_mem_toDigits (h ▸ List.mem_cons_self)⟩

theorem exists_padded_eq_cons (width n : Nat) :
    ∃ c cs, padded width n = c :: cs ∧ c.isDigit = true := by
  obtain ⟨c, cs, h⟩ := List.exists_cons_of_ne_nil (padded_ne_nil width n)
  exact ⟨c, cs, h, isDigit_of_mem_padded (h ▸ List.mem_cons_self)⟩

theorem length_padded {width n : Nat} (hw : 0 < width) (h : n < 10 ^ width) :
    (padded width n).length = width := by
  have hlen : (Nat.toDigits 10 n).length ≤ width := (Nat.length_toDigits_le_iff (by decide) hw).mpr h
  rw [padded, List.length_append, List.length_replicate]
  omega

/-- A number with more digits is written with no zero in front. -/
theorem head?_toDigits {n : Nat} (h : 0 < n) : (Nat.toDigits 10 n).head? ≠ some '0' := by
  induction n using Nat.strongRecOn with
  | ind n ih =>
    rw [Nat.toDigits_eq_if (by decide)]
    split
    · rename_i hlt
      have hdigit : ∀ d : Fin 10, 0 < d.val → d.val.digitChar ≠ '0' := by decide
      simpa using hdigit ⟨n, hlt⟩ h
    · have hfirst := ih (n / 10) (by omega) (by omega)
      obtain ⟨c, cs, hd, _⟩ := exists_toDigits_eq_cons (n / 10)
      rw [hd] at hfirst ⊢
      exact hfirst

namespace Json

/-! ## Digits in a text -/

/-- No digit stands at the front of a text. -/
def NoDigit (cs : List Char) : Prop := ∀ c ∈ cs.head?, c.isDigit = false

theorem spanDigits_append {digits rest : List Char} (hd : ∀ c ∈ digits, c.isDigit = true)
    (hr : NoDigit rest) : spanDigits (digits ++ rest) = (digits, rest) := by
  rw [spanDigits, List.takeWhile_append_of_pos hd, List.dropWhile_append_of_pos hd]
  cases rest with
  | nil => simp
  | cons c cs =>
    have hc : c.isDigit = false := hr c rfl
    simp [hc]

theorem le_foldl_digits (digits : List Char) (n : Nat) :
    n ≤ digits.foldl (fun n c => n * 10 + digitValue c) n := by
  induction digits generalizing n with
  | nil => exact Nat.le_refl n
  | cons c rest ih => exact Nat.le_trans (by omega) (ih (n * 10 + digitValue c))

/-- All digits are taken if their number fits 64 bits. -/
theorem takeDigits_eq {digits : List Char} {n : Nat}
    (h : digits.foldl (fun n c => n * 10 + digitValue c) n < 0x10000000000000000) (taken : Nat) :
    takeDigits n taken digits =
      (digits.foldl (fun n c => n * 10 + digitValue c) n, taken + digits.length, 0) := by
  induction digits generalizing n taken with
  | nil => rfl
  | cons c rest ih =>
    have hnext : n * 10 + digitValue c < 0x10000000000000000 := Nat.lt_of_le_of_lt (le_foldl_digits ..) h
    rw [takeDigits]
    simp only [if_pos hnext, ih h, List.foldl_cons, List.length_cons]
    rw [Nat.add_assoc, Nat.add_comm 1]

theorem takeDigits_toDigits {n : Nat} (h : n < 0x10000000000000000) :
    takeDigits 0 0 (Nat.toDigits 10 n) = (n, (Nat.toDigits 10 n).length, 0) := by
  have hn : (Nat.toDigits 10 n).foldl (fun n c => n * 10 + digitValue c) 0 = n :=
    decimalNumber_toDigits n
  rw [takeDigits_eq (by rwa [hn]), hn, Nat.zero_add]

theorem integerNumber_toDigits {n : Nat} (h : n < 0x10000000000000000) :
    integerNumber false (Nat.toDigits 10 n) = some (.ofNat n h) := by
  rw [integerNumber, takeDigits_toDigits h]
  simp [h]

theorem integerNumber_neg_toDigits {n : Nat} (hpos : 0 < n) (h : n ≤ 0x8000000000000000) :
    integerNumber true (Nat.toDigits 10 n) = some (.integer ⟨-n, by omega, by omega⟩) := by
  rw [integerNumber, takeDigits_toDigits (by omega)]
  simp [hpos, h]

end Json

end SessionTrail

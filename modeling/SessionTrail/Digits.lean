/-!
# Digits

Decimal and hexadecimal digits, and numbers written with them. A number that is written with a fixed
count of hexadecimal digits is read back up to what the count can hold (`hexNumber?_hexDigits`).
-/
namespace SessionTrail

def digitValue (c : Char) : Nat := c.toNat - '0'.toNat

/-- The number that decimal digits write. -/
def decimalNumber (digits : List Char) : Nat := digits.foldl (fun n c => n * 10 + digitValue c) 0

def decimalText (n : Nat) : String := String.ofList (Nat.toDigits 10 n)

/-- A number in decimal digits, with zeros in front if there would be fewer than `width`. -/
def padded (width n : Nat) : List Char :=
  let digits := Nat.toDigits 10 n
  List.replicate (width - digits.length) '0' ++ digits

def hexDigit (n : Nat) : Char := Nat.digitChar n

/-- The value of a hexadecimal digit of either case. -/
def hexValue? (c : Char) : Option Nat :=
  if '0' ≤ c ∧ c ≤ '9' then some (c.toNat - '0'.toNat)
  else if 'a' ≤ c ∧ c ≤ 'f' then some (c.toNat - 'a'.toNat + 10)
  else if 'A' ≤ c ∧ c ≤ 'F' then some (c.toNat - 'A'.toNat + 10)
  else none

/-- The last `width` hexadecimal digits of a number. -/
def hexDigits : Nat → Nat → List Char
  | 0, _ => []
  | width + 1, n => hexDigits width (n / 16) ++ [hexDigit (n % 16)]

/-- Append a hexadecimal digit to a number. -/
def appendHex (n : Nat) (c : Char) : Option Nat := (hexValue? c).map (n * 16 + ·)

/-- The number that hexadecimal digits write; none if a character is no digit. -/
def hexNumber? (digits : List Char) : Option Nat := digits.foldlM appendHex 0

theorem hexValue?_hexDigit {n : Nat} (h : n < 16) : hexValue? (hexDigit n) = some n := by
  have : ∀ n : Fin 16, hexValue? (hexDigit n) = some n.val := by decide
  exact this ⟨n, h⟩

@[simp] theorem length_hexDigits (width n : Nat) : (hexDigits width n).length = width := by
  induction width generalizing n with
  | zero => rfl
  | succ width ih => simp [hexDigits, ih]

theorem hexNumber?_append_singleton (digits : List Char) (c : Char) :
    hexNumber? (digits ++ [c]) = (hexNumber? digits).bind (appendHex · c) := by
  simp [hexNumber?, List.foldlM_append]

theorem hexNumber?_hexDigits (width n : Nat) :
    hexNumber? (hexDigits width n) = some (n % Nat.pow 16 width) := by
  induction width generalizing n with
  | zero => simp [hexDigits, hexNumber?, Nat.mod_one]
  | succ width ih =>
    rw [hexDigits, hexNumber?_append_singleton, ih]
    simp only [Option.bind_some, appendHex, hexValue?_hexDigit (Nat.mod_lt n (by decide : 0 < 16)),
      Option.map_some, Option.some.injEq]
    rw [Nat.pow_eq, Nat.pow_eq, Nat.pow_succ', Nat.mod_mul]
    omega

end SessionTrail

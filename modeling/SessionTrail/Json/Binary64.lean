/-!
# Real numbers of 64 bits

The finite binary floating-point numbers with 53 significant bits, as a sign, a whole mantissa and
a power of two, with rounding to the nearest and ties to even. Everything is computed on natural
numbers, so nothing here depends on a machine's floating-point unit. `shortest` finds the fewest
decimal digits that read back as the number, and `text` writes them: positionally while the decimal
point stands within sixteen digits of the front or within five zeros before it, and with a signed
exponent otherwise.
-/
namespace SessionTrail.Json

/-- The number `mantissa * 2 ^ exponent`, negated if `negative`. In normal form the mantissa has 53
bits unless the exponent is the least one, `-1074`. -/
structure Binary64 where
  negative : Bool
  mantissa : Nat
  exponent : Int
deriving DecidableEq, Repr

namespace Binary64

def zero (negative : Bool) : Binary64 := ⟨negative, 0, -1074⟩

/-- The number, where a zero has lost its sign: two numbers are equal in value if these are the same. -/
def withoutZeroSign (x : Binary64) : Binary64 := if x.mantissa = 0 then zero false else x

/-- `num / den` as a whole number, to the nearest, a tie to the even neighbour. -/
def divideToEven (num den : Nat) : Nat :=
  let q := num / den
  let twice := 2 * (num % den)
  if twice < den then q
  else if den < twice then q + 1
  else if q % 2 = 0 then q else q + 1

/-- `num * 2 ^ (-e) / den` as a quotient of whole numbers. -/
def scaled (num den : Nat) (e : Int) : Nat × Nat :=
  if e < 0 then (num <<< (-e).toNat, den) else (num, den <<< e.toNat)

/-- The number nearest to `num / den`, or none where that is beyond the greatest one. -/
def ofRatio (negative : Bool) (num den : Nat) : Option Binary64 :=
  if num = 0 then some (zero negative)
  else
    let guess : Int := (Nat.log2 num : Int) - (Nat.log2 den : Int) - 53
    let (n, d) := scaled num den guess
    let e := max (if n / d < 1 <<< 53 then guess else guess + 1) (-1074)
    let (n, d) := scaled num den e
    let m := divideToEven n d
    let (m, e) := if m = 1 <<< 53 then (1 <<< 52, e + 1) else (m, e)
    if 971 < e then none else some ⟨negative, m, e⟩

/-- A whole mantissa times a power of two, as a quotient of whole numbers. -/
def ratio (mantissa : Nat) (exponent : Int) : Nat × Nat :=
  if exponent < 0 then (mantissa, 1 <<< (-exponent).toNat) else (mantissa <<< exponent.toNat, 1)

/-- The rounded product of the magnitudes, with the sign of the first. -/
def times (x y : Binary64) : Option Binary64 :=
  let (n, d) := ratio (x.mantissa * y.mantissa) (x.exponent + y.exponent)
  ofRatio x.negative n d

/-- The rounded quotient of the magnitudes, with the sign of the first. -/
def dividedBy (x y : Binary64) : Option Binary64 :=
  let (n, d) := ratio x.mantissa (x.exponent - y.exponent)
  ofRatio x.negative n (d * y.mantissa)

def powerOfTen (n : Nat) : Binary64 := (ofRatio false (Nat.pow 10 n) 1).getD (zero false)

/-- `x * 10 ^ e` in rounded steps: powers up to `10 ^ 308` are one step, and a number is brought
down by `10 ^ 308` as often as needed. None where the result is too great. -/
def timesPowerOfTen (x : Binary64) (e : Int) : Option Binary64 :=
  if x.mantissa = 0 then some x
  else if 308 < e then none
  else if 0 ≤ e then x.times (powerOfTen e.toNat)
  else if -308 ≤ e then x.dividedBy (powerOfTen (-e).toNat)
  else
    match x.dividedBy (powerOfTen 308) with
    | some y => y.timesPowerOfTen (e + 308)
    | none => none
termination_by (-e).toNat

/-- The number read from the decimal `significand * 10 ^ exponent`. -/
def ofDecimal (negative : Bool) (significand : Nat) (exponent : Int) : Option Binary64 :=
  match ofRatio negative significand 1 with
  | some x => x.timesPowerOfTen exponent
  | none => none

/-! ## The shortest decimal -/

/-- Twice the number and twice its two boundaries, on a common denominator: a decimal between the
boundaries rounds to the number. -/
structure Span where
  low : Nat
  value : Nat
  high : Nat
  den : Nat

/-- The boundaries lie half way to the neighbours; below a power of two the gap is half as wide. -/
def span (x : Binary64) : Span :=
  let narrow := x.mantissa = 1 <<< 52 ∧ -1074 < x.exponent
  let low := if narrow then 4 * x.mantissa - 1 else 4 * x.mantissa - 2
  let (_, den) := ratio 1 x.exponent
  let scale := if x.exponent < 0 then 1 else 1 <<< x.exponent.toNat
  ⟨low * scale, 4 * x.mantissa * scale, (4 * x.mantissa + 2) * scale, 4 * den⟩

/-- `n * 10 ^ k` compared with `num / den`, as the two sides of a comparison of whole numbers. -/
def sides (n : Nat) (k : Int) (num den : Nat) : Nat × Nat :=
  if k < 0 then (n * den, num * Nat.pow 10 (-k).toNat) else (n * Nat.pow 10 k.toNat * den, num)

/-- Whether `n * 10 ^ k` rounds to the number; the boundaries themselves do for even mantissas. -/
def readsBack (x : Binary64) (n : Nat) (k : Int) : Bool :=
  let s := x.span
  let (a, l) := sides n k s.low s.den
  let (b, h) := sides n k s.high s.den
  if x.mantissa % 2 = 0 then decide (l ≤ a ∧ b ≤ h) else decide (l < a ∧ b < h)

/-- The greatest `n` with `n * 10 ^ k` at most the number. -/
def floorAt (x : Binary64) (k : Int) : Nat :=
  let s := x.span
  if k < 0 then s.value * Nat.pow 10 (-k).toNat / s.den else s.value / (s.den * Nat.pow 10 k.toNat)

/-- The decimal `n * 10 ^ k` with `n` of the grid at `k` that reads back, the nearer of two. -/
def onGrid (x : Binary64) (k : Int) : Option Nat :=
  let n := x.floorAt k
  match x.readsBack n k, x.readsBack (n + 1) k with
  | false, false => none
  | true, false => some n
  | false, true => some (n + 1)
  | true, true =>
    let s := x.span
    let (twice, v) := sides (2 * n + 1) k (2 * s.value) s.den
    if v < twice then some n
    else if twice < v then some (n + 1)
    else if n % 2 = 0 then some n else some (n + 1)

/-- The exponent of ten of the leading digit, searched downwards from `k`. -/
def leadingPower (x : Binary64) : Nat → Int → Int
  | 0, k => k
  | fuel + 1, k => if x.floorAt k = 0 then leadingPower x fuel (k - 1) else k

/-- The first grid, from coarse to fine, that holds a decimal that reads back. -/
def firstGrid (x : Binary64) : Nat → Int → Nat × Int
  | 0, k => (x.floorAt k, k)
  | fuel + 1, k =>
    match x.onGrid k with
    | some n => (n, k)
    | none => firstGrid x fuel (k - 1)

/-- Take trailing zeros off a decimal. -/
def trimZeros : Nat → Nat → Int → Nat × Int
  | 0, n, k => (n, k)
  | fuel + 1, n, k => if n ≠ 0 ∧ n % 10 = 0 then trimZeros fuel (n / 10) (k + 1) else (n, k)

/-- The decimal of fewest digits that reads back, as its digits and their power of ten. -/
def shortest (x : Binary64) : Nat × Int :=
  let lead := x.leadingPower 640 309
  let (n, k) := x.firstGrid 18 lead
  trimZeros 20 n k

/-- The text of a number: at least one digit after the point, or an exponent. -/
def text (x : Binary64) : List Char :=
  let sign := if x.negative then ['-'] else []
  if x.mantissa = 0 then sign ++ ['0', '.', '0']
  else
    let (n, k) := x.shortest
    let digits := Nat.toDigits 10 n
    let point : Int := digits.length + k
    let body :=
      if 0 ≤ k ∧ point ≤ 16 then digits ++ List.replicate k.toNat '0' ++ ['.', '0']
      else if 0 < point ∧ point ≤ 16 then
        digits.take point.toNat ++ '.' :: digits.drop point.toNat
      else if -5 < point ∧ point ≤ 0 then
        '0' :: '.' :: List.replicate (-point).toNat '0' ++ digits
      else
        let power := point - 1
        let tail := (if power < 0 then '-' else '+') :: Nat.toDigits 10 power.natAbs
        digits.take 1 ++ (if digits.length = 1 then [] else '.' :: digits.drop 1) ++ 'e' :: tail
    sign ++ body

end Binary64

end SessionTrail.Json

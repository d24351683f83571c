/-!
# Binary floating point numbers

Numbers of the 64-bit binary interchange format, kept as their bits. A finite one is
`± significand * 2 ^ exponent`. Rounding is to the nearest representable number, a half going to
the even neighbour.
-/

namespace LayeredConfig

/-- A 64-bit floating point number: sign, 11 bits of exponent, 52 bits of fraction. -/
structure Binary64 where
  bits : UInt64
deriving DecidableEq, Inhabited, Repr

namespace Binary64

def exponentField (x : Binary64) : Nat := x.bits.toNat / Nat.pow 2 52 % Nat.pow 2 11

def fraction (x : Binary64) : Nat := x.bits.toNat % Nat.pow 2 52

def isNegative (x : Binary64) : Bool := Nat.pow 2 63 ≤ x.bits.toNat

def isFinite (x : Binary64) : Bool := x.exponentField != 2047

def isNaN (x : Binary64) : Bool := x.exponentField == 2047 && x.fraction != 0

def isZero (x : Binary64) : Bool := x.exponentField == 0 && x.fraction == 0

def significand (x : Binary64) : Nat :=
  if x.exponentField = 0 then x.fraction else Nat.pow 2 52 + x.fraction

def exponent (x : Binary64) : Int := (max x.exponentField 1 : Nat) - 1075

/-- Equality as numbers: NaN differs from itself and the two zeros agree. -/
def numericEq (x y : Binary64) : Bool :=
  !x.isNaN && !y.isNaN && (x.bits == y.bits || (x.isZero && y.isZero))

def infinityBits : Nat := 2047 * Nat.pow 2 52

def ofMagnitude (negative : Bool) (magnitude : Nat) : Binary64 :=
  ⟨.ofNat (magnitude + if negative then Nat.pow 2 63 else 0)⟩

def zero (negative : Bool) : Binary64 := ofMagnitude negative 0

def infinity (negative : Bool) : Binary64 := ofMagnitude negative infinityBits

def nan : Binary64 := ⟨.ofNat (infinityBits + Nat.pow 2 51)⟩

def one : Binary64 := ⟨.ofNat (1023 * Nat.pow 2 52)⟩

/-! ## Rounding -/

/-- The integer nearest to `num / den`, a half going to the even one. -/
def roundHalfEven (num den : Nat) : Nat :=
  let quotient := num / den
  let rest := num % den
  if 2 * rest < den then quotient
  else if den < 2 * rest then quotient + 1
  else quotient + quotient % 2

/-- `2 ^ e` for a positive exponent, 1 otherwise. -/
def powerOfTwo (e : Int) : Nat := Nat.pow 2 e.toNat

/-- The magnitude bits nearest to `num / den`; infinity's when it is too large. The quotient lies
strictly between `2 ^ (k - 1)` and `2 ^ (k + 1)`, so at the exponent chosen its integer part has at
most 53 bits, and a significand that rounds up to 54 bits carries into the exponent. -/
def nearestMagnitude (num den : Nat) : Nat :=
  if num = 0 then 0 else
  let k : Int := (num.log2 : Int) - den.log2
  let least := max (k - 53) (-1074)
  let tooWide : Bool := Nat.pow 2 53 * (den * powerOfTwo least) ≤ num * powerOfTwo (-least)
  let e := if tooWide then least + 1 else least
  let significand := roundHalfEven (num * powerOfTwo (-e)) (den * powerOfTwo e)
  min ((e + 1074).toNat * Nat.pow 2 52 + significand) infinityBits

def ofRatio (negative : Bool) (num den : Nat) : Binary64 :=
  ofMagnitude negative (nearestMagnitude num den)

def ofInt (i : Int) : Binary64 := ofRatio (i < 0) i.natAbs 1

def digitCount (n : Nat) : Nat := (Nat.toDigits 10 n).length

/-- The number nearest to `± digits * 10 ^ e`. Outside the range of the first two tests no power is
computed: such a number is above the largest finite one, or below half the smallest. -/
def ofDecimal (negative : Bool) (digits : Nat) (e : Int) : Binary64 :=
  if digits = 0 then zero negative
  else if 310 < e + digitCount digits then infinity negative
  else if e + digitCount digits < -330 then zero negative
  else ofRatio negative (digits * Nat.pow 10 e.toNat) (Nat.pow 10 (-e).toNat)

/-! ## Scaling -/

def mul (x y : Binary64) : Binary64 :=
  let e := x.exponent + y.exponent
  ofRatio (x.isNegative != y.isNegative)
    (x.significand * y.significand * powerOfTwo e) (powerOfTwo (-e))

/-- The quotient of two finite numbers, rounded; the divisor is not zero. -/
def div (x y : Binary64) : Binary64 :=
  let e := x.exponent - y.exponent
  ofRatio (x.isNegative != y.isNegative)
    (x.significand * powerOfTwo e) (y.significand * powerOfTwo (-e))

end Binary64

end LayeredConfig

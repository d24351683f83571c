import LayeredConfig.Decimal.Binary64

/-!
# Shortest digits

The decimal with the fewest digits among those that round to a given floating point number, and
among these the nearest to it. For one digit, two digits and so on up to seventeen, the two
neighbours of the number on that decimal grid are tested; if any point of a grid rounds to the
number, one of the two does, and on the seventeen-digit grid one always does.
-/

namespace LayeredConfig

/-- A decimal `digits * 10 ^ exponent`. -/
structure Decimal where
  digits : Nat
  exponent : Int
deriving DecidableEq, Repr, Inhabited

/-- Which of two equally near decimals is taken. -/
inductive Tie where
  | even
  | away
deriving DecidableEq

namespace Decimal

/-- `10 ^ e` for a positive exponent, 1 otherwise. -/
def powerOfTen (e : Int) : Nat := Nat.pow 10 e.toNat

/-- Removes trailing zeros; the fuel is the number of digits. -/
def stripZeros : Nat → Decimal → Decimal
  | 0, d => d
  | fuel + 1, d =>
    if d.digits ≠ 0 ∧ d.digits % 10 = 0 then stripZeros fuel ⟨d.digits / 10, d.exponent + 1⟩ else d

def normal (d : Decimal) : Decimal := stripZeros (Binary64.digitCount d.digits) d

def leading (d : Decimal) : Int := d.exponent + Binary64.digitCount d.digits - 1

def leadingOfRatio (num den : Nat) : Int :=
  if den ≤ num then (Binary64.digitCount (num / den) : Int) - 1
  else -(Binary64.digitCount ((den + num - 1) / num - 1) : Int)

/-- The decimals that round to a number: the interval between the midpoints to its neighbours, in
quarters of the number's unit, with its ends when `closed`. -/
structure RoundingInterval where
  low : Nat
  value : Nat
  high : Nat
  exponent : Int
  closed : Bool

/-- The neighbour below a power of two is only half as far, except where numbers are densest. -/
def RoundingInterval.of (x : Binary64) : RoundingInterval where
  low := 4 * x.significand - if x.fraction = 0 ∧ 1 < x.exponentField then 1 else 2
  value := 4 * x.significand
  high := 4 * x.significand + 2
  exponent := x.exponent - 2
  closed := x.significand % 2 = 0

/-- Compares `digits * 10 ^ p` with `quarters * 2 ^ q`. -/
def compareWith (digits : Nat) (p : Int) (quarters : Nat) (q : Int) : Ordering :=
  compare (digits * powerOfTen p * Binary64.powerOfTwo (-q))
    (quarters * powerOfTen (-p) * Binary64.powerOfTwo q)

def RoundingInterval.holds (i : RoundingInterval) (digits : Nat) (p : Int) : Bool :=
  match compareWith digits p i.low i.exponent, compareWith digits p i.high i.exponent with
  | .gt, .lt => true
  | .eq, _ | _, .eq => i.closed
  | _, _ => false

/-- Whether the upper neighbour is taken when `rest / den` is the number's distance from `below`. -/
def roundsUp (tie : Tie) (below rest den : Nat) : Bool :=
  match compare (2 * rest) den with
  | .lt => false
  | .gt => true
  | .eq => tie = .away || below % 2 == 1

/-- Of the two neighbours `below` and `below + 1` on the grid of `10 ^ p`, the one that rounds to
the number, and if both do the nearer. -/
def neighbour? (tie : Tie) (i : RoundingInterval) (p : Int) : Option Decimal :=
  let num := i.value * powerOfTen (-p) * Binary64.powerOfTwo i.exponent
  let den := powerOfTen p * Binary64.powerOfTwo (-i.exponent)
  let below := num / den
  match i.holds below p, i.holds (below + 1) p with
  | true, false => some ⟨below, p⟩
  | false, true => some ⟨below + 1, p⟩
  | false, false => none
  | true, true => some ⟨if roundsUp tie below (num % den) den then below + 1 else below, p⟩

def shortest (tie : Tie) (x : Binary64) : Decimal :=
  if x.isZero then ⟨0, 0⟩ else
  let i := RoundingInterval.of x
  let lead := leadingOfRatio (i.value * Binary64.powerOfTwo i.exponent)
    (Binary64.powerOfTwo (-i.exponent))
  let grids := (List.range 17).map fun (n : Nat) => lead - n
  ((grids.findSome? (neighbour? tie i)).getD ⟨i.value, i.exponent⟩).normal

end Decimal

end LayeredConfig

import LayeredConfig.Decimal.Shortest

/-!
# Layouts of floating point numbers

How the digits of a number are set: positionally, or as a coefficient and a power of ten. Each
output has one layout record.
-/

namespace LayeredConfig

structure FloatLayout where
  tie : Tie
  /-- The leading digit's exponents that are written positionally; no bound when absent. -/
  lowest : Option Int
  highest : Option Int
  plus : Bool

namespace FloatLayout

/-- Floats in running text: never an exponent. -/
def plain : FloatLayout := ⟨.away, none, none, false⟩

/-- The last exponent of the leading digit at which a whole number keeps a zero after the point. -/
def wholeMarkLimit : Int := 15

/-- Digits around a point; a whole number below 10 ^ 16 keeps one zero after it. -/
def positional (d : Decimal) : String :=
  let digits := String.ofList (Nat.toDigits 10 d.digits)
  if 0 ≤ d.exponent then
    let zeros := String.ofList (List.replicate d.exponent.toNat '0')
    digits ++ zeros ++ (if d.leading ≤ wholeMarkLimit then ".0" else "")
  else
    let places := (-d.exponent).toNat
    let padded := List.replicate (places + 1 - digits.length) '0' ++ digits.toList
    let whole := padded.length - places
    String.ofList (padded.take whole ++ '.' :: padded.drop whole)

def scientific (plus : Bool) (d : Decimal) : String :=
  let coefficient :=
    match Nat.toDigits 10 d.digits with
    | first :: second :: rest => first :: '.' :: second :: rest
    | digits => digits
  let sign := if d.leading < 0 then "-" else if plus then "+" else ""
  String.ofList coefficient ++ "e" ++ sign ++ toString d.leading.natAbs

def isPositional (layout : FloatLayout) (leading : Int) : Bool :=
  (layout.lowest.all (· ≤ leading)) && (layout.highest.all (leading ≤ ·))

def render (layout : FloatLayout) (x : Binary64) : String :=
  if x.isNaN then "NaN" else
  let sign := if x.isNegative then "-" else ""
  if !x.isFinite then sign ++ "inf" else
  let d := Decimal.shortest layout.tie x
  sign ++ if x.isZero || layout.isPositional d.leading then positional d
    else scientific layout.plus d

end FloatLayout

end LayeredConfig

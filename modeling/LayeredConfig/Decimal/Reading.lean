import LayeredConfig.Decimal.Binary64

/-!
# Reading numbers

The texts that denote integers and floating point numbers: one optional sign and ASCII digits, with
a fraction and an exponent for the latter, which also have the words `inf`, `infinity` and `nan`.
-/

namespace LayeredConfig

def digitValue? (base : Nat) (c : Char) : Option Nat :=
  let value? :=
    if '0' ≤ c ∧ c ≤ '9' then some (c.toNat - '0'.toNat)
    else if 'a' ≤ c ∧ c ≤ 'f' then some (c.toNat - 'a'.toNat + 10)
    else if 'A' ≤ c ∧ c ≤ 'F' then some (c.toNat - 'A'.toNat + 10)
    else none
  value?.filter (· < base)

def natOfDigits? (base : Nat) : List Char → Option Nat
  | [] => none
  | cs => cs.foldlM (fun n c => (digitValue? base c).map (base * n + ·)) 0

def takeSign : List Char → Bool × List Char
  | '-' :: rest => (true, rest)
  | '+' :: rest => (false, rest)
  | cs => (false, cs)

def intOfDigits? (base : Nat) (cs : List Char) : Option Int :=
  let (negative, digits) := takeSign cs
  (natOfDigits? base digits).map fun n => if negative then -(n : Int) else n

def int64OfInt? (i : Int) : Option Int64 :=
  if Int64.minValue.toInt ≤ i ∧ i ≤ Int64.maxValue.toInt then some (.ofInt i) else none

def readInt64? (text : String) : Option Int64 :=
  (intOfDigits? 10 text.toList).bind int64OfInt?

/-- The unsigned 64-bit integer that a text without a minus denotes. -/
def readUInt64? (text : String) : Option UInt64 :=
  let (negative, digits) := takeSign text.toList
  if negative then none
  else (natOfDigits? 10 digits).bind fun n => if n < UInt64.size then some (.ofNat n) else none

def takeDigits (cs : List Char) : List Char × List Char := cs.span Char.isDigit

/-- The exponent part of a number that ends with it: nothing, or `e` and an integer. -/
def exponentPart? : List Char → Option Int
  | [] => some 0
  | c :: rest => if c = 'e' ∨ c = 'E' then intOfDigits? 10 rest else none

/-- The number in digits with at most one point among or around them, and an optional exponent. -/
def decimalNumber? (negative : Bool) (cs : List Char) : Option Binary64 :=
  let (whole, afterWhole) := takeDigits cs
  let (fraction, afterFraction) :=
    match afterWhole with
    | '.' :: rest => takeDigits rest
    | rest => ([], rest)
  match natOfDigits? 10 (whole ++ fraction), exponentPart? afterFraction with
  | some digits, some e => some (.ofDecimal negative digits (e - fraction.length))
  | _, _ => none

/-- The floating point number that a text denotes: the nearest, or infinity beyond the largest. -/
def readFloat? (text : String) : Option Binary64 :=
  let (negative, rest) := takeSign text.toList
  match String.ofList (rest.map Char.toLower) with
  | "inf" | "infinity" => some (.infinity negative)
  | "nan" => some .nan
  | _ => decimalNumber? negative rest

end LayeredConfig

import LayeredConfig.Document

/-!
# JSON numbers

A number is an integer when it has neither fraction nor exponent and fits in 64 bits. Any other is
read as a significand of at most 64 bits, taken from the leading digits, times a power of ten; each
of the steps from there is rounded. A result beyond the largest finite number is refused.
-/

namespace LayeredConfig.Json

/-- The parts of a number's text; each list holds digits. -/
structure NumberText where
  negative : Bool
  whole : List Char
  fraction : Option (List Char)
  exponent : Option Int

/-- A whole part: no digits may follow a leading zero. -/
def isWhole : List Char → Bool
  | [] => false
  | ['0'] => true
  | c :: _ => c != '0'

def exponentOf? : List Char → Option (Option Int)
  | [] => some none
  | c :: rest => if c = 'e' ∨ c = 'E' then (intOfDigits? 10 rest).map some else none

def NumberText.ofChars? (cs : List Char) : Option NumberText :=
  let (negative, unsigned) : Bool × List Char :=
    match cs with
    | '-' :: rest => (true, rest)
    | rest => (false, rest)
  let (whole, afterWhole) := takeDigits unsigned
  let (fraction, afterFraction) : Option (List Char) × List Char :=
    match afterWhole with
    | '.' :: rest => (some (takeDigits rest).1, (takeDigits rest).2)
    | rest => (none, rest)
  if isWhole whole && fraction.all (!·.isEmpty) then
    (exponentOf? afterFraction).map fun exponent => ⟨negative, whole, fraction, exponent⟩
  else none

/-- Extends a significand by digits while it fits in 64 bits, and counts the digits used. -/
def takeFitting (significand : Nat) : List Char → Nat × Nat
  | [] => (significand, 0)
  | c :: rest =>
    let longer := 10 * significand + (c.toNat - '0'.toNat)
    if longer < UInt64.size then
      let (result, used) := takeFitting longer rest
      (result, used + 1)
    else (significand, 0)

def powerOfTen (e : Nat) : Binary64 := .ofDecimal false 1 e

/-- A number times a power of ten: one multiplication, or one or two divisions. -/
def scaled? (x : Binary64) (e : Int) : Option Binary64 :=
  if x.isZero then some x
  else if 308 < e then none
  else if 0 ≤ e then some (x.mul (powerOfTen e.toNat)) |>.filter Binary64.isFinite
  else if -308 ≤ e then some (x.div (powerOfTen (-e).toNat))
  else if -616 ≤ e then some ((x.div (powerOfTen 308)).div (powerOfTen (-e - 308).toNat))
  else some (.zero x.isNegative)

def ofParts? (negative : Bool) (significand : Nat) (e : Int) : Option Document :=
  (scaled? (.ofRatio negative significand 1) e).map .float

def NumberText.toDocument? (n : NumberText) : Option Document :=
  let (whole, used) := takeFitting 0 n.whole
  let skipped : Int := n.whole.length - used
  if n.fraction.isNone ∧ n.exponent.isNone ∧ skipped = 0 then
    if n.negative ∧ whole = 0 then some (.float (.zero true))
    else if n.negative then
      some ((Document.ofInt? (-(whole : Int))).getD (.float (.ofInt (-(whole : Int)))))
    else Document.ofInt? whole
  else
    let (significand, places) := takeFitting whole (n.fraction.getD [])
    ofParts? n.negative significand (skipped - places + n.exponent.getD 0)

def number? (cs : List Char) : Option Document :=
  (NumberText.ofChars? cs).bind NumberText.toDocument?

end LayeredConfig.Json

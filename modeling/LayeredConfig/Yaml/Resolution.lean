import LayeredConfig.Document
import LayeredConfig.Yaml.Tag

/-!
# What plain scalars denote

A plain scalar is null, a boolean or a number if it is written like one, and a text otherwise.
Integers may have a base; decimal digits after a leading zero are a text.
-/

namespace LayeredConfig.Yaml

inductive Resolved where
  | null
  | bool (b : Bool)
  | int (i : Int)
  | float (x : Binary64)
  | text

/-- Whether a text is null; the empty text is not among them. -/
def isNullWord (text : String) : Bool :=
  text = "null" || text = "Null" || text = "NULL" || text = "~"

def boolWord? (text : String) : Option Bool :=
  if text = "true" ∨ text = "True" ∨ text = "TRUE" then some true
  else if text = "false" ∨ text = "False" ∨ text = "FALSE" then some false
  else none

/-- Whether a text is an optional sign and two or more digits of which the first is zero. -/
def hasLeadingZero (cs : List Char) : Bool :=
  match (takeSign cs).2 with
  | '0' :: d :: rest => (d :: rest).all Char.isDigit
  | _ => false

/-- The number that an unsigned text denotes, with the mark of its base if it is not ten. -/
def unsigned? : List Char → Option Nat
  | '0' :: 'x' :: digits => natOfDigits? 16 digits
  | '0' :: 'o' :: digits => natOfDigits? 8 digits
  | '0' :: 'b' :: digits => natOfDigits? 2 digits
  | digits => if hasLeadingZero digits then none else natOfDigits? 10 digits

/-- The integer that a text denotes, if it fits in 128 bits, with a sign or without. -/
def integer? (cs : List Char) : Option Int :=
  let (negative, digits) := takeSign cs
  (unsigned? digits).bind fun n =>
    if negative then (if n ≤ Nat.pow 2 127 then some (-(n : Int)) else none)
    else if n < Nat.pow 2 128 then some (n : Int)
    else none

/-- The floating point number that a text denotes; a number too large is none. -/
def float? (text : String) : Option Binary64 :=
  match text with
  | ".inf" | ".Inf" | ".INF" | "+.inf" | "+.Inf" | "+.INF" => some (.infinity false)
  | "-.inf" | "-.Inf" | "-.INF" => some (.infinity true)
  | ".nan" | ".NaN" | ".NAN" => some .nan
  | _ => (readFloat? text).filter Binary64.isFinite

def Resolved.ofPlain (text : String) : Resolved :=
  if text = "" || isNullWord text then .null
  else
    match boolWord? text, integer? text.toList with
    | some b, _ => .bool b
    | none, some i => .int i
    | none, none =>
      if hasLeadingZero text.toList then .text
      else
        match float? text with
        | some x => .float x
        | none => .text

/-- The document of a plain scalar; there is none for an integer beyond 64 bits. -/
def plainDocument? (text : String) : Option Document :=
  match Resolved.ofPlain text with
  | .null => some .null
  | .bool b => some (.bool b)
  | .int i => Document.ofInt? i
  | .float x => some (.ofFloat x)
  | .text => some (.text text)

def untaggedDocument? (text : String) (plain : Bool) : Option Document :=
  if plain then plainDocument? text else some (.text text)

/-- The document of a scalar with a tag, plain or quoted. Tags for this document only are unknown,
but one that is no text counts as none. Shared tags other than those below denote texts. -/
def taggedDocument? (tag : Tag) (text : String) (plain : Bool) : Option Document :=
  if tag = .shared "bool" then (boolWord? text).map .bool
  else if tag = .shared "int" then (integer? text.toList).bind Document.ofInt?
  else if tag = .shared "float" then (float? text).map .ofFloat
  else if tag = .shared "null" then if isNullWord text then some .null else none
  else if !tag.isLocal then some (.text text)
  else if tag.isText then none
  else untaggedDocument? text plain

end LayeredConfig.Yaml

import LayeredConfig.Decimal.Reading

/-!
# Documents

The plain mapping form that every file format reads and writes: scalars, lists and mappings from
names to documents. Integers are exact; those above the signed 64-bit range, which a file can hold
but a configuration cannot, have a constructor of their own.
-/

namespace LayeredConfig

inductive Document where
  | null
  | bool (b : Bool)
  | int (i : Int64)
  /-- An integer from 2 ^ 63 to 2 ^ 64 - 1. -/
  | large (n : UInt64)
  | float (x : Binary64)
  | text (s : String)
  | list (items : List Document)
  | mapping (entries : List (String × Document))
deriving Inhabited

namespace Document

/-- An integer as a document, if it fits in 64 bits with or without a sign. -/
def ofInt? (i : Int) : Option Document :=
  if Int64.minValue.toInt ≤ i ∧ i ≤ Int64.maxValue.toInt then some (.int (.ofInt i))
  else if 0 ≤ i ∧ i < UInt64.size then some (.large (.ofNat i.toNat))
  else none

/-- A floating point number as a document; there is none for NaN and the infinities. -/
def ofFloat (x : Binary64) : Document := if x.isFinite then .float x else .null

def describe : Document → String
  | .null => "null"
  | .bool _ => "a boolean"
  | .int _ | .large _ | .float _ => "a number"
  | .text _ => "a string"
  | .list _ => "a list"
  | .mapping _ => "a mapping"

end Document

end LayeredConfig

import LayeredConfig.Decimal.Reading

/-!
# XML references

Characters that markup is made of are written as named entities. A reference is a name, or a number
sign and the number of a character in decimal or, after an `x`, hexadecimal notation.
-/

namespace LayeredConfig.Xml

def entity? : List Char → Option Char
  | ['l', 't'] => some '<'
  | ['g', 't'] => some '>'
  | ['a', 'm', 'p'] => some '&'
  | ['a', 'p', 'o', 's'] => some '\''
  | ['q', 'u', 'o', 't'] => some '"'
  | _ => none

def escapedChar (c : Char) : List Char :=
  if c = '<' then "&lt;".toList
  else if c = '>' then "&gt;".toList
  else if c = '&' then "&amp;".toList
  else if c = '\'' then "&apos;".toList
  else if c = '"' then "&quot;".toList
  else [c]

def escaped (text : List Char) : List Char := text.flatMap escapedChar

def characterNumber? (n : Nat) : Option Char :=
  if n ≠ 0 ∧ n.isValidChar then some (.ofNat n) else none

def numeric? : List Char → Option Char
  | 'x' :: digits => (natOfDigits? 16 digits).bind characterNumber?
  | digits => (natOfDigits? 10 digits).bind characterNumber?

def reference? : List Char → Option Char
  | '#' :: number => numeric? number
  | name => entity? name

/-- Resolves the references in a quoted value; `pending` holds what followed an ampersand, in
reverse. -/
def resolveFrom? : Option (List Char) → List Char → Option (List Char)
  | none, [] => some []
  | some _, [] => none
  | none, c :: rest =>
    if c = '&' then resolveFrom? (some []) rest else (resolveFrom? none rest).map (c :: ·)
  | some name, c :: rest =>
    if c = '&' then none
    else if c = ';' then do
      let character ← reference? name.reverse
      return character :: (← resolveFrom? none rest)
    else resolveFrom? (some (c :: name)) rest

def resolve? (value : List Char) : Option (List Char) := resolveFrom? none value

end LayeredConfig.Xml

import LayeredConfig.Xml.Reference

/-!
# XML tags

The inside of a start tag: a name and attributes. Attributes need quotes and may not repeat; of
their values only the type mark is looked at.
-/

namespace LayeredConfig.Xml

def isSpace (c : Char) : Bool := c == ' ' || c == '\r' || c == '\n' || c == '\t'

/-- Where the reader of attributes stands; texts are kept in reverse. -/
inductive Position where
  | between
  | inName (name : List Char)
  | afterName (name : List Char)
  | beforeValue (name : List Char)
  | inValue (name : List Char) (quote : Char) (value : List Char)

def attributesFrom? (found : List (List Char × List Char)) :
    Position → List Char → Option (List (List Char × List Char))
  | .between, [] => some found
  | _, [] => none
  | .between, c :: rest =>
    attributesFrom? found (if isSpace c then .between else .inName [c]) rest
  | .inName name, c :: rest =>
    attributesFrom? found
      (if c = '=' then .beforeValue name.reverse
       else if isSpace c then .afterName name.reverse
       else .inName (c :: name)) rest
  | .afterName name, c :: rest =>
    if isSpace c then attributesFrom? found (.afterName name) rest
    else if c = '=' then attributesFrom? found (.beforeValue name) rest
    else none
  | .beforeValue name, c :: rest =>
    if isSpace c then attributesFrom? found (.beforeValue name) rest
    else if c = '"' ∨ c = '\'' then attributesFrom? found (.inValue name c []) rest
    else none
  | .inValue name quote value, c :: rest =>
    if c ≠ quote then attributesFrom? found (.inValue name quote (c :: value)) rest
    else if (found.map Prod.fst).contains name then none
    else attributesFrom? (found ++ [(name, value.reverse)]) .between rest

def typeAttribute : List Char := "_type".toList

structure Tag where
  name : List Char
  mark : Option (List Char)
deriving DecidableEq

def Tag.ofChars? (inside : List Char) : Option Tag := do
  let (name, rest) := inside.span fun c => !isSpace c
  let attributes ← attributesFrom? [] .between rest
  match attributes.lookup typeAttribute with
  | none => some ⟨name, none⟩
  | some value => (resolve? value).map fun mark => ⟨name, some mark⟩

end LayeredConfig.Xml

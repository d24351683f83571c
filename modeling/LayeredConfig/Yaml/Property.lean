import LayeredConfig.Decimal.Reading
import LayeredConfig.Yaml.Cursor
import LayeredConfig.Yaml.Tag

/-!
# Tags, anchors and directives

The pieces of YAML that are written with words of ASCII letters, digits, dashes and underscores:
names of anchors, handles and suffixes of tags, and the directives in front of a document.
-/

namespace LayeredConfig.Yaml

def isNameChar (c : Char) : Bool := c.isAlphanum || c == '_' || c == '-'

/-! ## Anchors -/

def anchorName? (c : Cursor) : Option (String × Cursor) :=
  let (name, after) := c.takeWhile isNameChar
  let ended := endsWord after.rest || after.rest.head?.any ("?:,]\x7d%@`".toList.contains ·)
  if name.isEmpty || !ended then none else some (String.ofList name, after)

/-! ## Tags -/

/-- The characters of a tag's suffix; within angle brackets three more are allowed. -/
def isTagChar (verbatim : Bool) (c : Char) : Bool :=
  isNameChar c || ";/?:@&=+$.%!~*'()".toList.contains c || (verbatim && ",[]".toList.contains c)

def utf8Width? (byte : Nat) : Option Nat :=
  if byte < 0x80 then some 1
  else if 0xC0 ≤ byte ∧ byte < 0xE0 then some 2
  else if 0xE0 ≤ byte ∧ byte < 0xF0 then some 3
  else if 0xF0 ≤ byte ∧ byte < 0xF8 then some 4
  else none

/-- The bytes written as percent signs with two digits, up to a number of them. -/
def percentBytes? : Nat → List Char → Option (List Nat)
  | 0, _ => some []
  | count + 1, '%' :: a :: b :: rest => do
    let byte ← natOfDigits? 16 [a, b]
    return byte :: (← percentBytes? count rest)
  | _, _ => none

/-- The bytes of one character written as percent escapes. The first tells their number and the
others begin with the bits 10; whether they make up a character is not checked. -/
def percentChar? (cs : List Char) : Option (List Nat) := do
  let first ← (← percentBytes? 1 cs).head?
  let width ← utf8Width? first
  let bytes ← percentBytes? width cs
  if bytes.tail.all fun byte => 0x80 ≤ byte && byte < 0xC0 then some bytes else none

/-- The bytes of a tag's suffix that come next, after those of `text`, with percent escapes
resolved. The characters left bound their number. -/
def tagText? (verbatim : Bool) : List Char → List UInt8 → Cursor → Option (List UInt8 × Cursor)
  | [], text, c => some (text, c)
  | _ :: left, text, c =>
    match c.rest with
    | [] => some (text, c)
    | ch :: _ =>
      if ch = '%' then do
        let bytes ← percentChar? c.rest
        tagText? verbatim left (text ++ bytes.map (.ofNat ·)) (c.advance (3 * bytes.length))
      else if isTagChar verbatim ch then
        tagText? verbatim left (text ++ [ch.toUInt8]) (c.advance 1)
      else some (text, c)

/-- The suffix that comes next, after the beginning of it. It ends before its first zero byte. -/
def tagSuffix? (verbatim : Bool) (front : List Char) (c : Cursor) : Option (Tag × Cursor) :=
  (tagText? verbatim c.rest (Tag.ofString (String.ofList front)).bytes c).map fun (bytes, after) =>
    (⟨bytes.takeWhile (· ≠ 0)⟩, after)

def ownTagSuffix? (verbatim : Bool) (c : Cursor) : Option (Tag × Cursor) :=
  if c.rest.head?.any (isTagChar verbatim) then tagSuffix? verbatim [] c else none

def tagHandle? (c : Cursor) : Option (List Char × Cursor) :=
  match c.rest with
  | '!' :: _ =>
    let (name, after) := (c.advance 1).takeWhile isNameChar
    if after.rest.head? == some '!' then some ('!' :: name ++ ['!'], after.advance 1)
    else some ('!' :: name, after)
  | _ => none

def isNamedHandle (handle : List Char) : Bool := 1 < handle.length && handle.getLast? == some '!'

/-- A tag: its handle and its suffix. A verbatim tag and a lone exclamation mark have no handle. -/
structure TagName where
  handle : String
  suffix : Tag
deriving DecidableEq, Repr

def tagName? (flow : Bool) (c : Cursor) : Option (TagName × Cursor) := do
  let (tag, after) ←
    match c.rest with
    | '!' :: '<' :: _ => do
      let (suffix, after) ← ownTagSuffix? true (c.advance 2)
      if after.rest.head? != some '>' then none
      some (TagName.mk "" suffix, after.advance 1)
    | _ => do
      let (handle, after) ← tagHandle? c
      if isNamedHandle handle then
        let (suffix, after) ← ownTagSuffix? false after
        some (TagName.mk (String.ofList handle) suffix, after)
      else
        let (suffix, after) ← tagSuffix? false handle.tail after
        if suffix.bytes.isEmpty then some (TagName.mk "" (.ofString "!"), after)
        else some (TagName.mk "!" suffix, after)
  if endsWord after.rest || (flow && after.rest.head? == some ',') then some (tag, after) else none

/-! ## Directives -/

inductive Directive where
  | version (major minor : Nat)
  | tag (handle : String) (front : Tag)

/-- A number of at most nine digits. -/
def directiveNumber? (c : Cursor) : Option (Nat × Cursor) := do
  let (digits, after) := c.takeWhile Char.isDigit
  if 9 < digits.length then none
  let n ← natOfDigits? 10 digits
  return (n, after)

def versionDirective? (c : Cursor) : Option (Directive × Cursor) := do
  let (major, c) ← directiveNumber? (c.skipWhile isBlankChar)
  if c.rest.head? != some '.' then none
  let (minor, c) ← directiveNumber? (c.advance 1)
  return (.version major minor, c)

def tagDirective? (c : Cursor) : Option (Directive × Cursor) := do
  let (handle, c) ← tagHandle? (c.skipWhile isBlankChar)
  if !(isNamedHandle handle || handle = ['!']) then none
  if !c.rest.head?.any isBlankChar then none
  let (front, c) ← ownTagSuffix? true (c.skipWhile isBlankChar)
  if !endsWord c.rest then none
  return (.tag (String.ofList handle) front, c)

def directive? (c : Cursor) : Option (Directive × Cursor) := do
  let (name, c) := (c.advance 1).takeWhile isNameChar
  if name.isEmpty || !endsWord c.rest then none
  let (directive, c) ←
    match String.ofList name with
    | "YAML" => versionDirective? c
    | "TAG" => tagDirective? c
    | _ => none
  let c := c.skipWhile isBlankChar
  let c := if c.rest.head? == some '#' then c.skipLine else c
  if endsLine c.rest then return (directive, c.nextLine) else none

end LayeredConfig.Yaml

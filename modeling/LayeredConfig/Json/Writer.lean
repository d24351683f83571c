import LayeredConfig.Decimal.Layout
import LayeredConfig.Document

/-!
# Writing JSON

The compact form, and the form set over lines with two spaces of indentation for each level. Empty
lists and mappings stay on one line in both.
-/

namespace LayeredConfig.Json

/-- The fewest digits, positional from 10 ^ -5 to 10 ^ 16, otherwise with a signed exponent. -/
def floatLayout : FloatLayout := ⟨.even, some (-5), some 15, true⟩

def controlDigits (c : Char) : List Char :=
  let digits := Nat.toDigits 16 c.toNat
  List.replicate (4 - digits.length) '0' ++ digits

def escapedChar (c : Char) : List Char :=
  if c = '"' then ['\\', '"']
  else if c = '\\' then ['\\', '\\']
  else if c = '\n' then ['\\', 'n']
  else if c = '\r' then ['\\', 'r']
  else if c = '\t' then ['\\', 't']
  else if c = '\x08' then ['\\', 'b']
  else if c = '\x0c' then ['\\', 'f']
  else if c.toNat < 0x20 then ['\\', 'u'] ++ controlDigits c
  else [c]

def quote (text : String) : String :=
  String.ofList (['"'] ++ text.toList.flatMap escapedChar ++ ['"'])

/-! ## The compact form -/

def commas (parts : List String) : String := ",".intercalate parts

mutual

def compact : Document → String
  | .null => "null"
  | .bool b => if b then "true" else "false"
  | .int i => toString i.toInt
  | .large n => toString n.toNat
  | .float x => floatLayout.render x
  | .text s => quote s
  | .list items => "[" ++ commas (compactItems items) ++ "]"
  | .mapping entries => "\x7b" ++ commas (compactEntries entries) ++ "\x7d"

def compactItems : List Document → List String
  | [] => []
  | item :: rest => compact item :: compactItems rest

def compactEntries : List (String × Document) → List String
  | [] => []
  | (key, value) :: rest => (quote key ++ ":" ++ compact value) :: compactEntries rest

end

/-! ## The indented form -/

def lineStart (level : Nat) : String := "\n" ++ String.ofList (List.replicate (2 * level) ' ')

def lines (level : Nat) (opening closing : String) (parts : List String) : String :=
  opening ++ lineStart (level + 1) ++ ("," ++ lineStart (level + 1)).intercalate parts
    ++ lineStart level ++ closing

mutual

def indented (level : Nat) : Document → String
  | .list [] => "[]"
  | .mapping [] => "\x7b\x7d"
  | .list items => lines level "[" "]" (indentedItems (level + 1) items)
  | .mapping entries => lines level "\x7b" "\x7d" (indentedEntries (level + 1) entries)
  | .null => "null"
  | .bool b => if b then "true" else "false"
  | .int i => toString i.toInt
  | .large n => toString n.toNat
  | .float x => floatLayout.render x
  | .text s => quote s

def indentedItems (level : Nat) : List Document → List String
  | [] => []
  | item :: rest => indented level item :: indentedItems level rest

def indentedEntries (level : Nat) : List (String × Document) → List String
  | [] => []
  | (key, value) :: rest =>
    (quote key ++ ": " ++ indented level value) :: indentedEntries level rest

end

def render (document : Document) : String := indented 0 document

end LayeredConfig.Json

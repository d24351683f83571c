import LayeredConfig.Decimal.Layout
import LayeredConfig.Xml.Element

/-!
# Writing XML

Every element stands on a line of its own, two spaces deeper than the one around it. Leaves other
than strings are marked with their type, and so are lists and mappings without contents; the items
of a list are named like it after an underscore.
-/

namespace LayeredConfig.Xml

def lineStart (level : Nat) : List Char := '\n' :: List.replicate (2 * level) ' '

def tagText (name : String) (mark : Option String) : List Char :=
  name.toList ++
    match mark with
    | none => []
    | some typeName => [' '] ++ typeAttribute ++ ['=', '"'] ++ typeName.toList ++ ['"']

def emptyElement (level : Nat) (name : String) (mark : Option String) : List Char :=
  lineStart level ++ ['<'] ++ tagText name mark ++ ['/', '>']

def leafElement (level : Nat) (name : String) (mark : Option String) (text : String) : List Char :=
  lineStart level ++ ['<'] ++ tagText name mark ++ ['>'] ++ escaped text.toList
    ++ ['<', '/'] ++ name.toList ++ ['>']

def outerElement (level : Nat) (name : String) (inside : List Char) : List Char :=
  lineStart level ++ ['<'] ++ name.toList ++ ['>'] ++ inside
    ++ lineStart level ++ ['<', '/'] ++ name.toList ++ ['>']

mutual

def element (level : Nat) (name : String) : Document → List Char
  | .null => emptyElement level name (some "null")
  | .bool b => leafElement level name (some "bool") (if b then "true" else "false")
  | .int i => leafElement level name (some "int") (toString i.toInt)
  | .large n => leafElement level name (some "int") (toString n.toNat)
  | .float x => leafElement level name (some "float") (FloatLayout.plain.render x)
  | .text s => if s = "" then emptyElement level name none else leafElement level name none s
  | .list [] => emptyElement level name (some "list")
  | .list (d :: rest) => outerElement level name (elements (level + 1) (itemName name) (d :: rest))
  | .mapping [] => emptyElement level name (some "dict")
  | .mapping (field :: rest) => outerElement level name (fieldElements (level + 1) (field :: rest))

def elements (level : Nat) (name : String) : List Document → List Char
  | [] => []
  | d :: rest => element level name d ++ elements level name rest

def fieldElements (level : Nat) : List (String × Document) → List Char
  | [] => []
  | (name, d) :: rest => element level name d ++ fieldElements level rest

end

def rootName : String := "config"

def declaration : List Char := "<?xml version=\"1.0\" encoding=\"utf-8\"?>".toList

def render (d : Document) : String := String.ofList (declaration ++ element 0 rootName d)

end LayeredConfig.Xml

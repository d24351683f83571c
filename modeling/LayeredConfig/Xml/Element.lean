import LayeredConfig.Error
import LayeredConfig.Text.AsciiCase
import LayeredConfig.Text.Blank
import LayeredConfig.Xml.Token

/-!
# XML elements

Elements from tokens, and documents from elements. An element without children is a leaf of the type
that its tag is marked with. One whose first child is named like itself after an underscore is a
list of the children of that name; any other is a mapping.
-/

namespace LayeredConfig.Xml

/-- An element: its character data and its children, each in order. -/
inductive Element where
  | mk (name : String) (mark : Option String) (text : String) (children : List Element)
deriving Inhabited

namespace Element

def name : Element → String
  | mk name _ _ _ => name

def children : Element → List Element
  | mk _ _ _ children => children

end Element

/-! ## The tree of elements -/

/-- An element that is open; its children are in reverse. -/
structure OpenElement where
  name : List Char
  mark : Option (List Char)
  text : List Char
  children : List Element

def OpenElement.ofTag (tag : Tag) : OpenElement := ⟨tag.name, tag.mark, [], []⟩

def OpenElement.close (e : OpenElement) : Element :=
  .mk (String.ofList e.name) (e.mark.map String.ofList) (String.ofList e.text) e.children.reverse

/-- The open elements, innermost first, and the last element closed outside all others. -/
structure Forest where
  stack : List OpenElement
  root : Option Element

def Forest.add (f : Forest) (e : Element) : Forest :=
  match f.stack with
  | [] => { f with root := some e }
  | parent :: outer => { f with stack := { parent with children := e :: parent.children } :: outer }

/-- Adds character data; outside all elements it is dropped. -/
def Forest.addText (f : Forest) (cs : List Char) : Forest :=
  match f.stack with
  | [] => f
  | parent :: outer => { f with stack := { parent with text := parent.text ++ cs } :: outer }

def referenceFault : List Char → XmlFault
  | '#' :: _ => .malformed
  | name => .unknownEntity (String.ofList name)

def Forest.step (f : Forest) : Token → Except XmlFault Forest
  | .opening tag => .ok { f with stack := .ofTag tag :: f.stack }
  | .empty tag => .ok (f.add (OpenElement.ofTag tag).close)
  | .closing name =>
    match f.stack with
    | [] => .error .malformed
    | e :: outer =>
      if e.name = name then .ok (Forest.add { f with stack := outer } e.close)
      else .error .malformed
  | .text cs => .ok (f.addText cs)
  | .reference name =>
    if f.stack.isEmpty then .ok f
    else
      match reference? name with
      | some c => .ok (f.addText [c])
      | none => .error (referenceFault name)
  | .malformed => .error .malformed

def rootOf (tokens : List Token) : Except XmlFault Element := do
  let forest ← tokens.foldlM Forest.step ⟨[], none⟩
  if !forest.stack.isEmpty then throw .unexpectedEnd
  match forest.root with
  | some e => return e
  | none => throw .noRoot

/-! ## Documents of elements -/

def leaf (name : String) (mark : Option String) (text : String) : Except SourceFault Document :=
  let invalid (typeName : String) : Except SourceFault Document :=
    .error (.badLeaf name text typeName)
  match mark with
  | none | some "str" => .ok (.text text)
  | some "int" =>
    match readInt64? (trimmed text), readUInt64? (trimmed text) with
    | some i, _ => .ok (.int i)
    | none, some n => .ok (.large n)
    | none, none => invalid "int"
  | some "float" =>
    match readFloat? (trimmed text) with
    | some x => .ok (.ofFloat x)
    | none => invalid "float"
  | some "bool" =>
    match lowered (trimmed text) with
    | "true" | "1" => .ok (.bool true)
    | "false" | "0" => .ok (.bool false)
    | _ => invalid "bool"
  | some "null" => .ok .null
  | some "list" => .ok (.list [])
  | some "dict" => .ok (.mapping [])
  | some other => .error (.unknownType other)

def itemName (name : String) : String := "_" ++ name

mutual

def Element.toDocument : Element → Except SourceFault Document
  | .mk name mark text [] => leaf name mark text
  | .mk name _ _ (first :: others) =>
    if first.name = itemName name then
      (itemsNamed (itemName name) (first :: others)).map .list
    else (fieldsOf (first :: others)).map fun fields => .mapping (Ordered.ofList fields)

def itemsNamed (name : String) : List Element → Except SourceFault (List Document)
  | [] => .ok []
  | e :: rest =>
    if e.name = name then do
      let d ← e.toDocument
      let ds ← itemsNamed name rest
      return d :: ds
    else itemsNamed name rest

def fieldsOf : List Element → Except SourceFault (List (String × Document))
  | [] => .ok []
  | e :: rest => do
    let d ← e.toDocument
    let ds ← fieldsOf rest
    return (e.name, d) :: ds

end

/-- The document of a root element: a mapping without entries if it has no children, whatever else
it has. -/
def Element.rootDocument (e : Element) : Except SourceFault Document :=
  if e.children.isEmpty then .ok (.mapping []) else e.toDocument

def read (text : String) : Except Error Document :=
  match rootOf (tokens text) with
  | .error fault => .error (.xmlSyntax fault)
  | .ok root =>
    match root.rootDocument with
    | .error fault => .error (.invalidSource fault)
    | .ok d => .ok d

end LayeredConfig.Xml

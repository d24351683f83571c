/-!
# YAML tags in full

A tag names the kind of a node. Percent escapes can put any bytes into it, so a tag is kept as its
bytes.
-/

namespace LayeredConfig.Yaml

/-- A tag, as the bytes of its text. -/
structure Tag where
  bytes : List UInt8
deriving DecidableEq, Repr

namespace Tag

def ofString (text : String) : Tag := ⟨text.toUTF8.data.toList⟩

/-- What the tags begin with that all documents share. -/
def sharedFront : String := "tag:yaml.org,2002:"

def shared (kind : String) : Tag := .ofString (sharedFront ++ kind)

def append (front rest : Tag) : Tag := ⟨front.bytes ++ rest.bytes⟩

def isLocal (tag : Tag) : Bool := tag.bytes.head? == some '!'.toUInt8

def isText (tag : Tag) : Bool := (String.fromUTF8? ⟨tag.bytes.toArray⟩).isSome

end Tag

end LayeredConfig.Yaml

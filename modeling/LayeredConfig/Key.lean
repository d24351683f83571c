/-!
# Compound keys

A compound key is a path of one or more segments, written with dots between them. A dot right after
a backslash belongs to its segment, and the backslash stays in it too, so that joining the segments
of a text with dots gives the text back.
-/

namespace LayeredConfig

def consFirst (c : Char) : List (List Char) → List (List Char)
  | [] => [[c]]
  | segment :: rest => (c :: segment) :: rest

/-- Splits at each dot that no backslash precedes; `escaped` tells of a backslash right before. -/
def splitDots (escaped : Bool) : List Char → List (List Char)
  | [] => [[]]
  | c :: rest =>
    if c = '.' ∧ escaped = false then [] :: splitDots false rest
    else consFirst c (splitDots (c == '\\') rest)

def splitKey (text : String) : List String := (splitDots false text.toList).map String.ofList

def dotted : List String → String
  | [] => ""
  | [segment] => segment
  | segment :: rest => segment ++ "." ++ dotted rest

theorem consFirst_ne_nil (c : Char) (segments : List (List Char)) :
    consFirst c segments ≠ [] := by
  cases segments <;> simp [consFirst]

theorem splitDots_ne_nil (escaped : Bool) (cs : List Char) : splitDots escaped cs ≠ [] := by
  cases cs with
  | nil => simp [splitDots]
  | cons c rest =>
    simp only [splitDots]
    split
    · simp
    · exact consFirst_ne_nil _ _

theorem splitKey_ne_nil (text : String) : splitKey text ≠ [] := by
  simp [splitKey, splitDots_ne_nil]

structure Key where
  segments : List String
  ne_nil : segments ≠ []
deriving DecidableEq

namespace Key

def parse (text : String) : Key := ⟨splitKey text, splitKey_ne_nil text⟩

/-- A single segment, dots included. -/
def literal (segment : String) : Key := ⟨[segment], by simp⟩

/-- The key of given segments; of none, the key of one empty segment. -/
def ofSegments (segments : List String) : Key :=
  if h : segments = [] then literal "" else ⟨segments, h⟩

def text (key : Key) : String := dotted key.segments

def flattened (key : Key) : Key := literal key.text

def length (key : Key) : Nat := key.segments.length

def parents (key : Key) : List String := key.segments.dropLast

def last (key : Key) : String := key.segments.getLast key.ne_nil

instance : Inhabited Key := ⟨literal ""⟩

end Key

end LayeredConfig

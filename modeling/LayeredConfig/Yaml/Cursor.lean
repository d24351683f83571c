/-!
# Positions in a YAML text

A cursor is the rest of a text with the line and the column it begins at. Lines end at a carriage
return, a line feed, both together, or one of three separators beyond ASCII; all but the last two of
these read as a line feed.
-/

namespace LayeredConfig.Yaml

def isAllowed (c : Char) : Bool :=
  let n := c.toNat
  n == 0x09 || n == 0x0A || n == 0x0D || (0x20 ≤ n && n ≤ 0x7E) || n == 0x85
    || (0xA0 ≤ n && n ≤ 0xD7FF) || (0xE000 ≤ n && n ≤ 0xFFFD) || 0x10000 ≤ n

def isBreak (c : Char) : Bool :=
  c == '\r' || c == '\n' || c == '\x85' || c == '\u2028' || c == '\u2029'

def isBlankChar (c : Char) : Bool := c == ' ' || c == '\t'

/-- Whether nothing but blanks, a line break or the end comes next. -/
def endsWord : List Char → Bool
  | [] => true
  | c :: _ => isBlankChar c || isBreak c

def endsLine : List Char → Bool
  | [] => true
  | c :: _ => isBreak c

structure Cursor where
  rest : List Char
  /-- The number of bytes before. -/
  offset : Nat
  line : Nat
  column : Nat
deriving Inhabited

namespace Cursor

def ofText (cs : List Char) : Cursor := ⟨cs, 0, 0, 0⟩

def advance (c : Cursor) (n : Nat) : Cursor :=
  { c with
    rest := c.rest.drop n
    offset := c.offset + (c.rest.take n).foldl (fun size char => size + char.utf8Size) 0
    column := c.column + n }

def nextLine (c : Cursor) : Cursor :=
  match c.rest with
  | '\r' :: '\n' :: rest => ⟨rest, c.offset + 2, c.line + 1, 0⟩
  | b :: rest => if isBreak b then ⟨rest, c.offset + b.utf8Size, c.line + 1, 0⟩ else c
  | [] => c

def breakText (c : Cursor) : List Char :=
  match c.rest with
  | b :: _ => if b == '\u2028' || b == '\u2029' then [b] else if isBreak b then ['\n'] else []
  | [] => []

def skipWhile (p : Char → Bool) (c : Cursor) : Cursor := c.advance (c.rest.takeWhile p).length

def takeWhile (p : Char → Bool) (c : Cursor) : List Char × Cursor :=
  (c.rest.takeWhile p, c.skipWhile p)

def skipLine (c : Cursor) : Cursor := c.skipWhile fun ch => !isBreak ch

def atDocumentMarker (c : Cursor) : Bool :=
  c.column == 0 &&
    match c.rest with
    | '-' :: '-' :: '-' :: rest | '.' :: '.' :: '.' :: rest => endsWord rest
    | _ => false

end Cursor

/-! ## Gaps between words -/

/-- The blanks and line breaks between two words of a scalar that goes over several lines. -/
structure Gap where
  blanks : List Char
  /-- Whether there is a line break, or an escaped one. -/
  broken : Bool
  first : List Char
  later : List Char

namespace Gap

def none : Gap := ⟨[], false, [], []⟩

/-- What a gap reads as: a single line break is folded into a space, of several all but the first
are kept. -/
def text (g : Gap) : List Char :=
  if !g.broken then g.blanks
  else if g.first = ['\n'] then (if g.later.isEmpty then [' '] else g.later)
  else g.first ++ g.later

end Gap

/-- Extends a gap by the blanks and line breaks that come next. Below column `margin` no tab may
stand in front of a line. The characters left bound the number of steps. -/
def takeGapFrom (margin : Int) : List Char → Gap → Cursor → Option (Gap × Cursor)
  | [], g, c => some (g, c)
  | _ :: left, g, c =>
    match c.rest with
    | [] => some (g, c)
    | ch :: _ =>
      if isBlankChar ch then
        if g.broken then
          if ch = '\t' ∧ c.column < margin then Option.none
          else takeGapFrom margin left g (c.advance 1)
        else takeGapFrom margin left { g with blanks := g.blanks ++ [ch] } (c.advance 1)
      else if isBreak ch then
        let g := if g.broken then { g with later := g.later ++ c.breakText }
          else { g with broken := true, first := c.breakText, blanks := [] }
        takeGapFrom margin left g c.nextLine
      else some (g, c)

def takeGap (margin : Int) (g : Gap) (c : Cursor) : Option (Gap × Cursor) :=
  takeGapFrom margin c.rest g c

end LayeredConfig.Yaml

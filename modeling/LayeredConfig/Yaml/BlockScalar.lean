import LayeredConfig.Yaml.Cursor

/-!
# Block scalars

Scalars made of the indented lines after a header. Literal ones keep their line breaks, folded ones
join lines that do not begin with a blank. The header may give the indentation, and tells what
becomes of the line breaks at the end.
-/

namespace LayeredConfig.Yaml

/-- How many of the line breaks at the end of a block scalar are kept: none, one or all. -/
inductive Chomping where
  | strip
  | clip
  | keep
deriving DecidableEq

def Chomping.ofSign? : Char → Option Chomping
  | '+' => some .keep
  | '-' => some .strip
  | _ => none

/-- The number of columns that a digit in a header stands for; zero is refused. -/
def headerDigit? (c : Char) : Option Nat :=
  if c.isDigit ∧ c ≠ '0' then some (c.toNat - '0'.toNat) else none

/-- A header: chomping, indentation if it is given, and the length of both. -/
structure BlockHeader where
  chomping : Chomping
  increment : Option Nat
  length : Nat

/-- The header after the mark of a block scalar; sign and digit may come in either order. -/
def BlockHeader.read? (cs : List Char) : Option BlockHeader :=
  let sign? := cs.head?.bind Chomping.ofSign?
  match sign?, cs with
  | some sign, _ :: d :: _ =>
    if d.isDigit then (headerDigit? d).map fun n => ⟨sign, some n, 2⟩ else some ⟨sign, none, 1⟩
  | some sign, _ => some ⟨sign, none, 1⟩
  | none, d :: rest =>
    if d.isDigit then
      (headerDigit? d).map fun n =>
        match rest.head?.bind Chomping.ofSign? with
        | some sign => ⟨sign, some n, 2⟩
        | none => ⟨.clip, some n, 1⟩
    else some ⟨.clip, none, 0⟩
  | none, [] => some ⟨.clip, none, 0⟩

/-- Passes indentation and empty lines: the line breaks passed, the largest column reached, and the
cursor. Indentation ends at `limit`, and a tab may not stand within it. The characters left bound
the number of lines. -/
def takeEmptyLines (limit : Option Nat) :
    List Char → List Char → Nat → Cursor → Option (List Char × Nat × Cursor)
  | [], breaks, deepest, c => some (breaks, deepest, c)
  | _ :: left, breaks, deepest, c =>
    let width :=
      match limit with
      | none => (c.rest.takeWhile (· == ' ')).length
      | some n => min (n - c.column) (c.rest.takeWhile (· == ' ')).length
    let c := c.advance width
    let deepest := max deepest c.column
    if c.rest.head? == some '\t' && limit.all (c.column < ·) then none
    else if c.rest.head?.any isBreak then
      takeEmptyLines limit left (breaks ++ c.breakText) deepest c.nextLine
    else some (breaks, deepest, c)

structure BlockText where
  /-- What is complete, last character first. -/
  reversed : List Char
  /-- The line break after the last line. -/
  lastBreak : List Char
  /-- The line breaks of the empty lines after it. -/
  emptyLines : List Char
  lastBlank : Bool

/-- The text, last character first, up to the next line. -/
def BlockText.joined (b : BlockText) (literal nextBlank : Bool) : List Char :=
  let breaks :=
    if !literal && b.lastBreak = ['\n'] && !b.lastBlank && !nextBlank then
      if b.emptyLines.isEmpty then [' '] else b.emptyLines
    else b.lastBreak ++ b.emptyLines
  breaks.reverse ++ b.reversed

/-- Reads the lines at an indentation. The characters left bound their number. -/
def blockLines (literal : Bool) (indent : Nat) :
    List Char → BlockText → Cursor → Option (BlockText × Cursor)
  | [], b, c => some (b, c)
  | _ :: left, b, c =>
    if c.column ≠ indent ∨ c.rest.isEmpty then some (b, c)
    else do
      let blank := c.rest.head?.any isBlankChar
      let (line, lineEnd) := c.takeWhile fun ch => !isBreak ch
      let (breaks, _, next) ←
        takeEmptyLines (some indent) lineEnd.rest [] 0 lineEnd.nextLine
      blockLines literal indent left
        ⟨line.reverse ++ b.joined literal blank, lineEnd.breakText, breaks, blank⟩ next

def blockScalar (literal : Bool) (parent : Int) (c : Cursor) : Option (List Char × Cursor) := do
  let c := c.advance 1
  let header ← BlockHeader.read? c.rest
  let c := (c.advance header.length).skipWhile isBlankChar
  let c := if c.rest.head? == some '#' then c.skipLine else c
  if !endsLine c.rest then none
  let c := c.nextLine
  let given := header.increment.map fun n => (max parent 0).toNat + n
  let (breaks, deepest, c) ← takeEmptyLines given c.rest [] 0 c
  let indent := given.getD (max (max deepest (parent + 1).toNat) 1)
  let (b, c) ← blockLines literal indent c.rest ⟨[], [], breaks, false⟩ c
  let kept :=
    match header.chomping with
    | .strip => []
    | .clip => b.lastBreak
    | .keep => b.lastBreak ++ b.emptyLines
  return (b.reversed.reverse ++ kept, c)

end LayeredConfig.Yaml

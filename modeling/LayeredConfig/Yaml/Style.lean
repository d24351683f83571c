import LayeredConfig.Yaml.Cursor
import LayeredConfig.Yaml.Resolution

/-!
# Styles of YAML strings

Which way of writing a string reads back as the same string: plain, in single quotes, in double
quotes, or as a literal block. A string with a line feed becomes a block where that is possible; any
other is written plain unless it would read as something else, and in double quotes only where
single quotes cannot hold it.
-/

namespace LayeredConfig.Yaml

inductive Style where
  | plain
  | single
  | double
  | literal
deriving DecidableEq

def isShown (c : Char) : Bool :=
  let n := c.toNat
  n == 0x0A || (0x20 ≤ n && n ≤ 0x7E) || (0xA0 ≤ n && n ≤ 0xD7FF)
    || (0xE000 ≤ n && n ≤ 0xFFFD && n != 0xFEFF) || 0x10000 ≤ n

def anyAdjacent (related : Char → Char → Bool) : List Char → Bool
  | a :: b :: rest => related a b || anyAdjacent related (b :: rest)
  | _ => false

def startsWithMark : List Char → Bool
  | '-' :: '-' :: '-' :: _ | '.' :: '.' :: '.' :: _ => true
  | c :: rest =>
    "#,[]\x7b\x7d&*!|>'\"%@`".toList.contains c
      || ((c == '?' || c == ':' || c == '-') && endsWord rest)
  | [] => false

/-- Whether a colon before a blank, or a number sign after one, follows in a text. -/
def hasInnerMark (afterBlank : Bool) : List Char → Bool
  | [] => false
  | c :: rest =>
    (c == ':' && endsWord rest) || (c == '#' && afterBlank)
      || hasInnerMark (isBlankChar c || isBreak c) rest

def hasMark : List Char → Bool
  | [] => false
  | c :: rest => startsWithMark (c :: rest) || hasInnerMark (isBlankChar c || isBreak c) rest

def isMultiline (cs : List Char) : Bool := cs.any isBreak

def needsEscapes (cs : List Char) : Bool :=
  cs.any (!isShown ·) || anyAdjacent (fun a b => a == ' ' && isBreak b) cs

def fitsSingle (cs : List Char) : Bool :=
  !needsEscapes cs && !anyAdjacent (fun a b => isBreak a && b == ' ') cs

def fitsPlain (cs : List Char) : Bool :=
  !needsEscapes cs && !isMultiline cs && !hasMark cs
    && cs.head?.all (· != ' ') && cs.getLast?.all (· != ' ')

def fitsLiteral (cs : List Char) : Bool := !needsEscapes cs && cs.getLast?.all (· != ' ')

def readsAsText (text : String) : Bool :=
  match Resolved.ofPlain text with
  | .text => !hasLeadingZero text.toList
  | _ => false

def Style.of (text : String) : Style :=
  let cs := text.toList
  if cs.contains '\n' then if fitsLiteral cs then .literal else .double
  else if readsAsText text && fitsPlain cs then .plain
  else if fitsSingle cs then .single
  else .double

def keyLimit : Nat := 128

def isSimpleKey (text : String) : Bool :=
  !isMultiline text.toList && text.utf8ByteSize ≤ keyLimit

end LayeredConfig.Yaml

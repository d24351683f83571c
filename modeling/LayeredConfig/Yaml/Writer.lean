import LayeredConfig.Decimal.Layout
import LayeredConfig.Yaml.Style

/-!
# Writing YAML

Collections are written as blocks, two columns deeper at each level, but a sequence below a key
stands at the column of the key. Lines are never wrapped.
-/

namespace LayeredConfig.Yaml

/-- The fewest digits, positional from 10 ^ -5 to 10 ^ 16, otherwise with an exponent. -/
def floatLayout : FloatLayout := ⟨.even, some (-5), some 15, false⟩

/-- What has been written, last character first. -/
abbrev Page := List Char

namespace Page

def add (p : Page) (cs : List Char) : Page := cs.reverse ++ p

def pad (p : Page) (n : Nat) : Page := p.add (List.replicate n ' ')

def line (p : Page) (column : Nat) : Page :=
  let fresh : Page := if endsLine p then p else '\n' :: p
  fresh.pad column

end Page

/-! ## Strings -/

def escapeLetter? : Char → Option Char
  | '\x00' => some '0'
  | '\x07' => some 'a'
  | '\x08' => some 'b'
  | '\t' => some 't'
  | '\n' => some 'n'
  | '\x0b' => some 'v'
  | '\x0c' => some 'f'
  | '\r' => some 'r'
  | '\x1b' => some 'e'
  | '"' => some '"'
  | '\\' => some '\\'
  | '\x85' => some 'N'
  | '\xa0' => some '_'
  | '\u2028' => some 'L'
  | '\u2029' => some 'P'
  | _ => none

def hexDigits (width n : Nat) : List Char :=
  let digits := (Nat.toDigits 16 n).map Char.toUpper
  List.replicate (width - digits.length) '0' ++ digits

def escapedChar (c : Char) : List Char :=
  if isShown c && !isBreak c && c != '"' && c != '\\' then [c]
  else
    match escapeLetter? c with
    | some letter => ['\\', letter]
    | none =>
      let n := c.toNat
      if n ≤ 0xFF then '\\' :: 'x' :: hexDigits 2 n
      else if n ≤ 0xFFFF then '\\' :: 'u' :: hexDigits 4 n
      else '\\' :: 'U' :: hexDigits 8 n

/-- Characters over several lines; a line that is not empty begins at a column. -/
def Page.addLines (p : Page) (column : Nat) (written : Char → List Char) (lineBegun : Bool) :
    List Char → Page
  | [] => p
  | c :: rest =>
    if isBreak c then Page.addLines (c :: p) column written true rest
    else
      let p := if lineBegun then p.pad column else p
      Page.addLines (p.add (written c)) column written false rest

/-- The header of a literal block: the indentation is given if it could not be seen, and a sign
tells how many line breaks end the text, unless it is one. -/
def literalHeader (cs : List Char) : List Char :=
  let indentation : List Char := if cs.head?.any (fun c => c == ' ' || isBreak c) then ['2'] else []
  let chomping : List Char :=
    match cs.reverse with
    | [] => ['-']
    | last :: before =>
      if !isBreak last then ['-']
      else if before.isEmpty || before.head?.any isBreak then ['+']
      else []
  '|' :: indentation ++ chomping

def Page.addString (p : Page) (column : Nat) (text : String) : Page :=
  let cs := text.toList
  match Style.of text with
  | .plain => p.add cs
  | .double => p.add (['"'] ++ cs.flatMap escapedChar ++ ['"'])
  | .literal =>
    (p.add (literalHeader cs ++ ['\n'])).addLines column (fun c => [c]) true cs
  | .single =>
    let quoted : Page :=
      Page.addLines ('\'' :: p) column (fun c => if c = '\'' then ['\'', '\''] else [c]) false cs
    let closed : Page := if cs.getLast?.any isBreak then quoted.pad column else quoted
    '\'' :: closed

/-! ## Documents -/

/-- A document without contents of its own, or nothing for a collection with contents. -/
def scalarText? : Document → Option String
  | .null => some "null"
  | .bool b => some (if b then "true" else "false")
  | .int i => some (toString i.toInt)
  | .large n => some (toString n.toNat)
  | .float x => some (floatLayout.render x)
  | .list [] => some "[]"
  | .mapping [] => some "\x7b\x7d"
  | _ => none

def Page.addScalar (p : Page) (column : Nat) (d : Document) : Page :=
  match d with
  | .text s => (p.add [' ']).addString (column + 2) s
  | d => p.add (' ' :: ((scalarText? d).getD "").toList)

/-- The key of an entry and its colon. A key that does not fit on one line with its value gets a
mark of its own. -/
def Page.addKey (p : Page) (column : Nat) (key : String) : Page :=
  if isSimpleKey key then (p.addString (column + 2) key).add [':']
  else (((p.add ['?', ' ']).addString (column + 2) key).line column).add [':']

mutual

def Page.addValue (p : Page) (column : Nat) : Document → Page
  | .list (d :: rest) => Page.addItems p column (d :: rest)
  | .mapping (field :: rest) => Page.addFields p (column + 2) (field :: rest)
  | d => p.addScalar column d

/-- What follows a mark at a column; a collection begins on the same line. -/
def Page.addInner (p : Page) (column : Nat) : Document → Page
  | .list (d :: rest) =>
    Page.addItems (Page.addInner (p.add [' ', '-']) (column + 2) d) (column + 2) rest
  | .mapping ((key, d) :: rest) =>
    let p := (p.add [' ']).addKey (column + 2) key
    let p := if isSimpleKey key then Page.addValue p (column + 2) d
      else Page.addInner p (column + 2) d
    Page.addFields p (column + 2) rest
  | d => p.addScalar column d

def Page.addItems (p : Page) (column : Nat) : List Document → Page
  | [] => p
  | d :: rest => Page.addItems (Page.addInner ((p.line column).add ['-']) column d) column rest

def Page.addFields (p : Page) (column : Nat) : List (String × Document) → Page
  | [] => p
  | (key, d) :: rest =>
    let p := (p.line column).addKey column key
    let p := if isSimpleKey key then Page.addValue p column d else Page.addInner p column d
    Page.addFields p column rest

end

def render (d : Document) : String :=
  let page : Page :=
    match d with
    | .list (first :: rest) => Page.addItems [] 0 (first :: rest)
    | .mapping (field :: rest) => Page.addFields [] 0 (field :: rest)
    | .text s => Page.addString [] 2 s
    | d => Page.add [] ((scalarText? d).getD "").toList
  String.ofList (page.line 0).reverse

end LayeredConfig.Yaml

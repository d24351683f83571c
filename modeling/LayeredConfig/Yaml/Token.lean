import LayeredConfig.Yaml.BlockScalar
import LayeredConfig.Yaml.PlainScalar
import LayeredConfig.Yaml.Property
import LayeredConfig.Yaml.QuotedScalar

/-!
# YAML tokens

The lexical level of YAML. Indentation is turned into tokens that open and close block collections.
A key without a mark of its own is recognised only when the colon after it comes; its tokens are
then put in where it began.
-/

namespace LayeredConfig.Yaml

inductive Token where
  | streamEnd
  | directive (d : Directive)
  | documentStart
  | documentEnd
  | blockSequenceStart
  | blockMappingStart
  | blockEnd
  | flowSequenceStart
  | flowSequenceEnd
  | flowMappingStart
  | flowMappingEnd
  | blockEntry
  | flowEntry
  | key
  | value
  | alias (name : String)
  | anchor (name : String)
  | tag (name : TagName)
  | scalar (text : String) (plain : Bool)
deriving Inhabited

structure KeyStart where
  tokenIndex : Nat
  /-- Whether nothing else can stand there. -/
  required : Bool
  offset : Nat
  line : Nat
  column : Nat

structure Scanner where
  cursor : Cursor
  tokens : Array Token
  /-- The column of the innermost block collection, -1 outside all, and those around it. -/
  indent : Int
  outerIndents : List Int
  /-- The key that may have begun in each open bracket, innermost first, and outside them. -/
  keyStarts : List (Option KeyStart)
  keyAllowed : Bool

namespace Scanner

def ofText (cs : List Char) : Scanner := ⟨.ofText cs, #[], -1, [], [none], true⟩

def inFlow (s : Scanner) : Bool := 1 < s.keyStarts.length

def push (s : Scanner) (token : Token) : Scanner := { s with tokens := s.tokens.push token }

def moveTo (s : Scanner) (cursor : Cursor) : Scanner := { s with cursor }

/-! ## Indentation -/

/-- Opens a block collection at a column that is deeper than the innermost one; its token goes to
the given place. -/
def openBlock (s : Scanner) (column : Nat) (tokenIndex : Nat) (token : Token) : Scanner :=
  if !s.inFlow && decide (s.indent < column) then
    { s with
      indent := column
      outerIndents := s.indent :: s.outerIndents
      tokens := s.tokens.insertIdxIfInBounds tokenIndex token }
  else s

def closeBlocks (column : Int) (tokens : Array Token) (indent : Int) :
    List Int → Array Token × Int × List Int
  | [] => (tokens, indent, [])
  | outer :: rest =>
    if column < indent then closeBlocks column (tokens.push .blockEnd) outer rest
    else (tokens, indent, outer :: rest)

/-- Closes the block collections that are deeper than a column, outside brackets. -/
def unindent (s : Scanner) (column : Int) : Scanner :=
  if s.inFlow then s
  else
    let (tokens, indent, outerIndents) := closeBlocks column s.tokens s.indent s.outerIndents
    { s with tokens, indent, outerIndents }

/-! ## Keys -/

/-- Gives up a key that may have begun; an error if it had to be one. -/
def dropKey (s : Scanner) : Option Scanner :=
  match s.keyStarts with
  | some start :: rest =>
    if start.required then none else some { s with keyStarts := none :: rest }
  | _ => some s

def saveKey (s : Scanner) : Option Scanner :=
  if !s.keyAllowed then some s
  else do
    let required := !s.inFlow && s.indent == s.cursor.column
    let start : KeyStart :=
      ⟨s.tokens.size, required, s.cursor.offset, s.cursor.line, s.cursor.column⟩
    let s ← s.dropKey
    return { s with keyStarts := some start :: s.keyStarts.drop 1 }

/-- Whether a key can no longer end here: it stays on its line and has at most 1024 bytes. -/
def KeyStart.isStale (k : KeyStart) (c : Cursor) : Bool :=
  k.line < c.line || k.offset + 1024 < c.offset

def dropStaleKeys (s : Scanner) : Option Scanner := do
  let stale := fun k => KeyStart.isStale k s.cursor
  if s.keyStarts.any fun start => start.any fun k => k.required && stale k then none
  return { s with keyStarts := s.keyStarts.map fun start => start.filter fun k => !stale k }

/-! ## Tokens -/

/-- Passes blanks, comments and line breaks, and a byte order mark that begins a line, though it
takes a column; a new line may begin with a key. The characters left bound the number of lines. -/
def skipToToken : List Char → Scanner → Scanner
  | [], s => s
  | _ :: left, s =>
    let c := if s.cursor.column = 0 ∧ s.cursor.rest.head? = some '\ufeff' then s.cursor.advance 1
      else s.cursor
    let tabs := s.inFlow || !s.keyAllowed
    let c := c.skipWhile fun ch => ch == ' ' || (tabs && ch == '\t')
    let c := if c.rest.head? == some '#' then c.skipLine else c
    if c.rest.head?.any isBreak then
      skipToToken left { s with cursor := c.nextLine, keyAllowed := s.keyAllowed || !s.inFlow }
    else s.moveTo c

/-- A token of some characters that no key can go on over. -/
def mark (s : Scanner) (token : Token) (length : Nat) (keyAllowed : Bool) : Option Scanner := do
  let s ← s.dropKey
  return { s.push token with cursor := s.cursor.advance length, keyAllowed }

/-- The marker of the start or the end of a document, or a directive: all blocks end before it. -/
def atTopLevel (s : Scanner) : Option Scanner := do
  let s ← (s.unindent (-1)).dropKey
  return { s with keyAllowed := false }

def documentMarker (s : Scanner) : Option Scanner := do
  let token := if s.cursor.rest.head? == some '-' then Token.documentStart else .documentEnd
  let s ← s.atTopLevel
  return (s.push token).moveTo (s.cursor.advance 3)

def directive (s : Scanner) : Option Scanner := do
  let s ← s.atTopLevel
  let (d, c) ← directive? s.cursor
  return (s.push (.directive d)).moveTo c

def openFlow (s : Scanner) (token : Token) : Option Scanner := do
  let s ← s.saveKey
  return { s.push token with
    cursor := s.cursor.advance 1, keyStarts := none :: s.keyStarts, keyAllowed := true }

def closeFlow (s : Scanner) (token : Token) : Option Scanner := do
  let s ← s.mark token 1 false
  return { s with keyStarts := if s.inFlow then s.keyStarts.drop 1 else s.keyStarts }

def blockMark (s : Scanner) (opening token : Token) (keyAllowed : Bool) : Option Scanner :=
  if s.inFlow then s.mark token 1 keyAllowed
  else if !s.keyAllowed then none
  else (s.openBlock s.cursor.column s.tokens.size opening).mark token 1 keyAllowed

/-- The colon before a value; it turns what may have been a key into one. -/
def valueMark (s : Scanner) : Option Scanner :=
  match s.keyStarts with
  | some start :: rest =>
    let s := { s with tokens := s.tokens.insertIdxIfInBounds start.tokenIndex .key }
    let s := s.openBlock start.column start.tokenIndex .blockMappingStart
    some { s.push .value with
      cursor := s.cursor.advance 1, keyStarts := none :: rest, keyAllowed := false }
  | _ =>
    if s.inFlow then
      some { s.push .value with cursor := s.cursor.advance 1, keyAllowed := false }
    else if !s.keyAllowed then none
    else
      let s := s.openBlock s.cursor.column s.tokens.size .blockMappingStart
      some { s.push .value with cursor := s.cursor.advance 1, keyAllowed := true }

def inKey (s : Scanner) (read : Scanner → Option (Token × Cursor)) : Option Scanner := do
  let s ← s.saveKey
  let (token, c) ← read s
  return { s.push token with cursor := c, keyAllowed := false }

def plain (s : Scanner) : Option Scanner := do
  let s ← s.saveKey
  let scalar ← plainScalar s.inFlow (s.indent + 1) s.cursor
  return { s.push (.scalar (String.ofList scalar.text) true) with
    cursor := scalar.cursor, keyAllowed := scalar.afterBreak }

def quoted (s : Scanner) (single : Bool) : Option Scanner :=
  s.inKey fun s => (quotedScalar single s.cursor).map fun (text, c) =>
    (.scalar (String.ofList text) false, c)

def block (s : Scanner) (literal : Bool) : Option Scanner := do
  let s ← s.dropKey
  let (text, c) ← blockScalar literal s.indent s.cursor
  return { s.push (.scalar (String.ofList text) false) with cursor := c, keyAllowed := true }

def token (s : Scanner) (ch : Char) (rest : List Char) : Option Scanner :=
  let apart := s.inFlow || endsWord rest
  match ch with
  | '[' => s.openFlow .flowSequenceStart
  | '{' => s.openFlow .flowMappingStart
  | ']' => s.closeFlow .flowSequenceEnd
  | '}' => s.closeFlow .flowMappingEnd
  | ',' => s.mark .flowEntry 1 true
  | '-' => if endsWord rest then s.blockMark .blockSequenceStart .blockEntry true else s.plain
  | '?' => if apart then s.blockMark .blockMappingStart .key (!s.inFlow) else s.plain
  | ':' => if apart then s.valueMark else s.plain
  | '*' => s.inKey fun s => (anchorName? (s.cursor.advance 1)).map fun (n, c) => (.alias n, c)
  | '&' => s.inKey fun s => (anchorName? (s.cursor.advance 1)).map fun (n, c) => (.anchor n, c)
  | '!' => s.inKey fun s => (tagName? s.inFlow s.cursor).map fun (n, c) => (.tag n, c)
  | '|' => if s.inFlow then none else s.block true
  | '>' => if s.inFlow then none else s.block false
  | '\'' => s.quoted true
  | '"' => s.quoted false
  | '#' | '%' | '@' | '`' | '\t' => none
  | _ => s.plain

def next (s : Scanner) : Option Scanner := do
  let s := skipToToken s.cursor.rest s
  let s ← s.dropStaleKeys
  let s := s.unindent s.cursor.column
  match s.cursor.rest with
  | [] => do
    let s ← s.atTopLevel
    return s.push .streamEnd
  | ch :: rest =>
    if s.cursor.column = 0 ∧ ch = '%' then s.directive
    else if s.cursor.atDocumentMarker then s.documentMarker
    else s.token ch rest

/-- Scans to the end; the fuel is the number of characters left. -/
def run : Nat → Scanner → Option (List Token)
  | 0, _ => none
  | fuel + 1, s => do
    let s ← s.next
    match s.tokens.back? with
    | some .streamEnd => some s.tokens.toList
    | _ => run fuel s

end Scanner

def tokens? (text : String) : Option (List Token) :=
  let cs := text.toList
  if cs.all isAllowed then Scanner.run (cs.length + 2) (.ofText cs) else none

end LayeredConfig.Yaml

import LayeredConfig.Decimal.Reading
import LayeredConfig.Yaml.Cursor

/-!
# Quoted scalars

Scalars in single quotes, where a quote is written twice, and in double quotes, where a backslash
begins an escape. Line breaks are folded; one after a backslash vanishes.
-/

namespace LayeredConfig.Yaml

def namedEscape? : Char → Option Char
  | '0' => some '\x00'
  | 'a' => some '\x07'
  | 'b' => some '\x08'
  | 't' | '\t' => some '\t'
  | 'n' => some '\n'
  | 'v' => some '\x0b'
  | 'f' => some '\x0c'
  | 'r' => some '\r'
  | 'e' => some '\x1b'
  | ' ' => some ' '
  | '"' => some '"'
  | '/' => some '/'
  | '\\' => some '\\'
  | 'N' => some '\x85'
  | '_' => some '\xa0'
  | 'L' => some '\u2028'
  | 'P' => some '\u2029'
  | _ => none

def escapeDigits? : Char → Option Nat
  | 'x' => some 2
  | 'u' => some 4
  | 'U' => some 8
  | _ => none

def escape? : List Char → Option (Char × Nat)
  | [] => none
  | c :: rest =>
    match namedEscape? c with
    | some ch => some (ch, 1)
    | none => do
      let length ← escapeDigits? c
      let digits := rest.take length
      if digits.length < length then none
      let n ← natOfDigits? 16 digits
      if n.isValidChar then some (.ofNat n, length + 1) else none

/-- A word inside quotes with the cursor after it, and whether an escaped line break ends it. -/
structure QuotedWord where
  text : List Char
  cursor : Cursor
  escapedBreak : Bool

def QuotedWord.cons (ch : Char) (word : QuotedWord) : QuotedWord :=
  { word with text := ch :: word.text }

/-- The word that comes next. The characters left bound its length. -/
def quotedWord (single : Bool) : List Char → Cursor → Option QuotedWord
  | [], c => some ⟨[], c, false⟩
  | _ :: left, c =>
    match single, c.rest with
    | true, '\'' :: '\'' :: _ => (quotedWord single left (c.advance 2)).map (.cons '\'')
    | true, '\'' :: _ => some ⟨[], c, false⟩
    | false, '"' :: _ => some ⟨[], c, false⟩
    | false, '\\' :: rest =>
      if rest.head?.any isBreak then some ⟨[], (c.advance 1).nextLine, true⟩
      else do
        let (ch, length) ← escape? rest
        (quotedWord single left (c.advance (length + 1))).map (.cons ch)
    | _, ch :: _ =>
      if isBlankChar ch || isBreak ch then some ⟨[], c, false⟩
      else (quotedWord single left (c.advance 1)).map (.cons ch)
    | _, [] => some ⟨[], c, false⟩

/-- The text up to the closing quote. The characters left bound the number of words. -/
def quotedFrom (single : Bool) : List Char → Cursor → Option (List Char × Cursor)
  | [], _ => none
  | _ :: left, c =>
    if c.atDocumentMarker || c.rest.isEmpty then none
    else do
      let word ← quotedWord single c.rest c
      let quote := if single then '\'' else '"'
      if word.cursor.rest.head? == some quote then
        return (word.text, word.cursor.advance 1)
      let (gap, next) ← takeGap 0 { Gap.none with broken := word.escapedBreak } word.cursor
      let (text, after) ← quotedFrom single left next
      return (word.text ++ gap.text ++ text, after)

def quotedScalar (single : Bool) (c : Cursor) : Option (List Char × Cursor) :=
  quotedFrom single c.rest (c.advance 1)

end LayeredConfig.Yaml

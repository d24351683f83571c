import LayeredConfig.Text.AsciiCase
import LayeredConfig.Xml.Tag

/-!
# XML tokens

The lexical level of XML: tags, character data and references. Comments, processing instructions,
declarations and document types leave no token. What is no token at all ends the list with
`Token.malformed`.
-/

namespace LayeredConfig.Xml

inductive Token where
  | opening (tag : Tag)
  | closing (name : List Char)
  | empty (tag : Tag)
  | text (cs : List Char)
  | reference (name : List Char)
  | malformed
deriving DecidableEq

/-- What the scanner is in the middle of; texts are kept in reverse. -/
inductive Scan where
  | text (cs : List Char)
  | reference (name : List Char)
  | markup
  | tag (inside : List Char) (quote : Option Char)
  | bang
  | comment (inside : List Char)
  | cdata (inside : List Char)
  /-- In a document type, and how many brackets are open inside. -/
  | doctype (inside : List Char) (depth : Nat)
  | instruction (inside : List Char)

/-- A run of character data, unless it is empty. -/
def textTokens (reversed : List Char) : List Token :=
  if reversed.isEmpty then [] else [.text reversed.reverse]

/-- The name in a closing tag: blanks after it are dropped, if there is a name. -/
def closingName (inside : List Char) : List Char :=
  let kept := (inside.reverse.dropWhile isSpace).reverse
  if kept.isEmpty then inside else kept

def tagToken (inside : List Char) : Token :=
  match inside with
  | '/' :: name => .closing (closingName name)
  | _ =>
    if inside.getLast? = some '/' then ((Tag.ofChars? inside.dropLast).map .empty).getD .malformed
    else ((Tag.ofChars? inside).map .opening).getD .malformed

def beginsWith (word text : List Char) : Bool := agreeUpToCase word (text.take word.length)

/-- The token of a closed character data section; its inside begins after the exclamation mark. -/
def cdataToken (inside : List Char) : Token :=
  if "[CDATA[".toList.isPrefixOf inside then .text (inside.drop 7).dropLast.dropLast
  else .malformed

def isDoctype (inside : List Char) : Bool :=
  beginsWith "DOCTYPE".toList inside && (inside.drop 7).any fun c => !isSpace c

def scan : Scan → List Char → List Token
  | .text cs, [] => textTokens cs
  | _, [] => [.malformed]
  | .text cs, c :: rest =>
    if c = '<' then textTokens cs ++ scan .markup rest
    else if c = '&' then textTokens cs ++ scan (.reference []) rest
    else scan (.text (c :: cs)) rest
  | .reference name, c :: rest =>
    if c = ';' then .reference name.reverse :: scan (.text []) rest
    else if c = '&' ∨ c = '<' then [.malformed]
    else scan (.reference (c :: name)) rest
  | .markup, c :: rest =>
    if c = '!' then scan .bang rest
    else if c = '?' then scan (.instruction [c]) rest
    else if c = '>' then tagToken [] :: scan (.text []) rest
    else scan (.tag [c] (if c = '"' ∨ c = '\'' then some c else none)) rest
  | .tag inside none, c :: rest =>
    if c = '>' then tagToken inside.reverse :: scan (.text []) rest
    else scan (.tag (c :: inside) (if c = '"' ∨ c = '\'' then some c else none)) rest
  | .tag inside (some quote), c :: rest =>
    scan (.tag (c :: inside) (if c = quote then none else some quote)) rest
  | .bang, c :: rest =>
    if c = '-' then scan (.comment [c]) rest
    else if c = '[' then scan (.cdata [c]) rest
    else if c = 'D' ∨ c = 'd' then scan (.doctype [c] 0) rest
    else [.malformed]
  | .comment inside, c :: rest =>
    if c = '>' ∧ 4 ≤ inside.length ∧ ['-', '-'].isPrefixOf inside then
      if ['-', '-'].isSuffixOf inside then scan (.text []) rest else [.malformed]
    else scan (.comment (c :: inside)) rest
  | .cdata inside, c :: rest =>
    if c = '>' ∧ [']', ']'].isPrefixOf inside then
      cdataToken inside.reverse :: scan (.text []) rest
    else scan (.cdata (c :: inside)) rest
  | .doctype inside depth, c :: rest =>
    if c = '<' then scan (.doctype (c :: inside) (depth + 1)) rest
    else if c = '>' then
      match depth with
      | outer + 1 => scan (.doctype (c :: inside) outer) rest
      | 0 => if isDoctype inside.reverse then scan (.text []) rest else [.malformed]
    else scan (.doctype (c :: inside) depth) rest
  | .instruction inside, c :: rest =>
    if c = '>' ∧ ['?'].isPrefixOf inside then
      if 1 < inside.length then scan (.text []) rest else [.malformed]
    else scan (.instruction (c :: inside)) rest

/-- The tokens of a document; a byte order mark at its start is skipped. -/
def tokens (text : String) : List Token :=
  match text.toList with
  | '\ufeff' :: rest => scan (.text []) rest
  | cs => scan (.text []) cs

end LayeredConfig.Xml

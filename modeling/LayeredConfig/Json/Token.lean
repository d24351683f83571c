import LayeredConfig.Json.Number

/-!
# JSON tokens

The lexical level of JSON: punctuation, strings with their escapes resolved, and the words and
numbers between them.
-/

namespace LayeredConfig.Json

inductive Token where
  | openList
  | closeList
  | openMapping
  | closeMapping
  | comma
  | colon
  | text (s : String)
  | scalar (d : Document)
deriving Inhabited

/-! ## Strings -/

def hex4? (a b c d : Char) : Option Nat := natOfDigits? 16 [a, b, c, d]

def letterEscape? : Char → Option Char
  | '"' => some '"'
  | '\\' => some '\\'
  | '/' => some '/'
  | 'b' => some '\x08'
  | 'f' => some '\x0c'
  | 'n' => some '\n'
  | 'r' => some '\r'
  | 't' => some '\t'
  | _ => none

/-- The inside of a string with its escapes resolved. An escape for the first half of a surrogate
pair must be followed by one for the second; other halves are refused. -/
def unescape? : List Char → Option (List Char)
  | [] => some []
  | '\\' :: 'u' :: a :: b :: c :: d :: rest => do
    let unit ← hex4? a b c d
    if 0xD800 ≤ unit ∧ unit < 0xDC00 then
      match rest with
      | '\\' :: 'u' :: a :: b :: c :: d :: rest =>
        let second ← hex4? a b c d
        if 0xDC00 ≤ second ∧ second < 0xE000 then
          let code := 0x10000 + (unit - 0xD800) * 0x400 + (second - 0xDC00)
          return .ofNat code :: (← unescape? rest)
        else none
      | _ => none
    else if 0xDC00 ≤ unit ∧ unit < 0xE000 then none
    else return .ofNat unit :: (← unescape? rest)
  | '\\' :: c :: rest => do
    let letter ← letterEscape? c
    return letter :: (← unescape? rest)
  | ['\\'] => none
  | c :: rest => if c.toNat < 0x20 then none else (unescape? rest).map (c :: ·)

/-! ## The scanner -/

/-- What the scanner is in the middle of; texts are kept in reverse. -/
inductive Scan where
  | between
  | bare (text : List Char)
  /-- Inside quotes, and whether right after a backslash. -/
  | quoted (text : List Char) (escaped : Bool)

def bareToken? (reversed : List Char) : Option Token :=
  match String.ofList reversed.reverse with
  | "null" => some (.scalar .null)
  | "true" => some (.scalar (.bool true))
  | "false" => some (.scalar (.bool false))
  | _ => (number? reversed.reverse).map .scalar

def isSpace (c : Char) : Bool := c == ' ' || c == '\n' || c == '\r' || c == '\t'

def startOf (c : Char) : List Token × Scan :=
  if isSpace c then ([], .between)
  else if c = '[' then ([.openList], .between)
  else if c = ']' then ([.closeList], .between)
  else if c = '{' then ([.openMapping], .between)
  else if c = '}' then ([.closeMapping], .between)
  else if c = ',' then ([.comma], .between)
  else if c = ':' then ([.colon], .between)
  else if c = '"' then ([], .quoted [] false)
  else ([], .bare [c])

def scan : Scan → List Char → Option (List Token)
  | .between, [] => some []
  | .bare text, [] => (bareToken? text).map ([·])
  | .quoted .., [] => none
  | .between, c :: rest =>
    let (tokens, next) := startOf c
    (scan next rest).map (tokens ++ ·)
  | .bare text, c :: rest =>
    match startOf c with
    | (_, .bare _) => scan (.bare (c :: text)) rest
    | (tokens, next) => do
      let token ← bareToken? text
      return token :: tokens ++ (← scan next rest)
  | .quoted text escaped, c :: rest =>
    if c = '"' ∧ escaped = false then do
      let inside ← unescape? text.reverse
      return .text (String.ofList inside) :: (← scan .between rest)
    else scan (.quoted (c :: text) (c == '\\' && !escaped)) rest

def tokens? (text : String) : Option (List Token) := scan .between text.toList

end LayeredConfig.Json

import LayeredConfig.Error
import LayeredConfig.Json.Token
import LayeredConfig.Ordered

/-!
# Reading JSON

Documents from tokens, with a stack of the containers that are open. At most 127 may be. Of entries
with the same name the first place and the last value count.
-/

namespace LayeredConfig.Json

/-- A container that is open; what it holds so far is kept in reverse. -/
inductive Frame where
  | list (items : List Document)
  | mapping (fields : List (String × Document))
  | field (fields : List (String × Document)) (name : String)

inductive Expect where
  | value
  /-- A value, or the end of a list that is empty so far. -/
  | firstItem
  /-- A name, or the end of a mapping that is empty so far. -/
  | firstName
  | name
  | colon (name : String)
  /-- A comma, or the end of the innermost container. -/
  | next
  | nothing (result : Document)

def depthLimit : Nat := 127

def complete (d : Document) : List Frame → Option (List Frame × Expect)
  | [] => some ([], .nothing d)
  | .list items :: stack => some (.list (d :: items) :: stack, .next)
  | .field fields name :: stack => some (.mapping ((name, d) :: fields) :: stack, .next)
  | .mapping _ :: _ => none

def opened (frame : Frame) (expect : Expect) (stack : List Frame) :
    Option (List Frame × Expect) :=
  if stack.length < depthLimit then some (frame :: stack, expect) else none

def beginValue (stack : List Frame) : Token → Option (List Frame × Expect)
  | .scalar d => complete d stack
  | .text s => complete (.text s) stack
  | .openList => opened (.list []) .firstItem stack
  | .openMapping => opened (.mapping []) .firstName stack
  | _ => none

def close : List Frame → Token → Option (List Frame × Expect)
  | .list items :: stack, .closeList => complete (.list items.reverse) stack
  | .mapping fields :: stack, .closeMapping =>
    complete (.mapping (Ordered.ofList fields.reverse)) stack
  | _, _ => none

def step : List Frame × Expect → Token → Option (List Frame × Expect)
  | (stack, .value), token => beginValue stack token
  | (stack, .firstItem), token => (close stack token).or (beginValue stack token)
  | (stack, .firstName), .text name => some (stack, .colon name)
  | (stack, .firstName), token => close stack token
  | (stack, .name), .text name => some (stack, .colon name)
  | (.mapping fields :: stack, .colon name), .colon => some (.field fields name :: stack, .value)
  | (.list items :: stack, .next), .comma => some (.list items :: stack, .value)
  | (.mapping fields :: stack, .next), .comma => some (.mapping fields :: stack, .name)
  | (stack, .next), token => close stack token
  | _, _ => none

def ofTokens? (tokens : List Token) : Option Document :=
  match tokens.foldlM step ([], .value) with
  | some ([], .nothing d) => some d
  | _ => none

def read (text : String) : Except Error Document :=
  match (tokens? text).bind ofTokens? with
  | some d => .ok d
  | none => .error .jsonSyntax

end LayeredConfig.Json

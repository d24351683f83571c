import LayeredConfig.Yaml.Cursor

/-!
# Plain scalars

Scalars without quotes: words joined by the gaps between them, up to a comment, a mark that ends
them, a document marker, or a line that is not deep enough.
-/

namespace LayeredConfig.Yaml

def isFlowMark (c : Char) : Bool := c == ',' || c == '[' || c == ']' || c == '{' || c == '}'

def plainWord (flow : Bool) : List Char → Option (List Char)
  | [] => some []
  | c :: rest =>
    if isBlankChar c || isBreak c then some []
    else if flow && c == ':' && rest.head?.any (fun d => isFlowMark d || d == '?') then none
    else if (c == ':' && endsWord rest) || (flow && isFlowMark c) then some []
    else (plainWord flow rest).map (c :: ·)

/-- A scalar, or the rest of one, with the cursor after it, and whether a line break was passed at
its end. -/
structure PlainScalar where
  text : List Char
  cursor : Cursor
  afterBreak : Bool

/-- The rest of a scalar after a gap; `margin` is the least column of a line. The characters left
bound the number of words. -/
def plainFrom (flow : Bool) (margin : Int) : List Char → Gap → Cursor → Option PlainScalar
  | [], gap, c => some ⟨[], c, gap.broken⟩
  | _ :: left, gap, c =>
    if c.atDocumentMarker || c.rest.head? == some '#' then some ⟨[], c, gap.broken⟩
    else do
      let word ← plainWord flow c.rest
      let after := c.advance word.length
      if word.isEmpty then return ⟨[], c, gap.broken⟩
      let text := gap.text ++ word
      if after.rest.isEmpty || !endsWord after.rest then return ⟨text, after, false⟩
      let (gap, next) ← takeGap margin .none after
      if !flow && decide (next.column < margin) then return ⟨text, next, gap.broken⟩
      let scalar ← plainFrom flow margin left gap next
      return { scalar with text := text ++ scalar.text }

def plainScalar (flow : Bool) (margin : Int) (c : Cursor) : Option PlainScalar :=
  plainFrom flow margin c.rest .none c

end LayeredConfig.Yaml

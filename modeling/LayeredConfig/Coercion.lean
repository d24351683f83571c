import LayeredConfig.Error
import LayeredConfig.Text.AsciiCase
import LayeredConfig.Text.Blank

/-!
# Coercion

Environment variables and command line switches propose texts. A proposal that overlays an existing
value is converted to the kind of that value; without one it becomes a string, `true`, or a list of
strings.
-/

namespace LayeredConfig

/-- What an environment variable or a switch proposes as a value. -/
inductive Proposal where
  | text (s : String)
  /-- A switch without values. -/
  | flag
  | many (items : List String)
deriving DecidableEq, Repr

namespace Proposal

def ofValues : List String → Proposal
  | [] => .flag
  | [one] => .text one
  | items => .many items

def untyped : Proposal → Value
  | text s => .str s
  | flag => .bool true
  | many items => .list (items.map .str)

end Proposal

/-- A text as a value of a kind: `0` and `false` are the false booleans, numbers may stand between
blanks, and a single text over a list is a list of one. -/
def coerceText (kind : Kind) (text : String) : Except Error Value :=
  match kind with
  | .bool => .ok (.bool (!(lowered text == "0" || lowered text == "false")))
  | .int =>
    match readInt64? (trimmed text) with
    | some i => .ok (.int i)
    | none => .error (.coercion text .int)
  | .float =>
    match readFloat? (trimmed text) with
    | some x => .ok (.float x)
    | none => .error (.coercion text .float)
  | .str | .null => .ok (.str text)
  | .list => .ok (.list [.str text])
  | .node => .error (.coercion text .node)

/-- A switch without values over a value of a kind: `true`, or the number one. -/
def coerceFlag : Kind → Except Error Value
  | .null => .ok (.bool true)
  | .int => .ok (.int 1)
  | .float => .ok (.float .one)
  | kind => coerceText kind "true"

/-- The kind of the elements of a list that overlays a value: that of the first element of a list,
otherwise that of the value itself. -/
def elementKind : Value → Kind
  | .list [] => .str
  | .list (first :: _) => first.kind
  | other => other.kind

def coerce (proposal : Proposal) (existing : Option Value) : Except Error Value :=
  match existing with
  | none => .ok proposal.untyped
  | some old =>
    match proposal with
    | .text s => coerceText old.kind s
    | .flag => coerceFlag old.kind
    | .many items =>
      if old.isNode then .error (.coercion (" ".intercalate items) .node)
      else (items.mapM (coerceText (elementKind old))).map .list

end LayeredConfig

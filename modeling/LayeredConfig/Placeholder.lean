import LayeredConfig.Value

/-!
# Placeholders

A placeholder is a name between braces that holds no brace itself. Formatting a text replaces every
placeholder whose name is in the globals table by the text of that global, and leaves everything
else, unknown names and unbalanced braces included, as it is. Replaced text is not read again.
-/

namespace LayeredConfig

/-- The globals of a tree, in order of first definition. -/
abbrev Globals := Entries

namespace Globals

def resolve (globals : Globals) (name : List Char) : List Char :=
  match globals.lookup (String.ofList name) with
  | some value => value.toText.toList
  | none => ['{'] ++ name ++ ['}']

/-- Formats the rest of a text; `pending` holds, in reverse, what followed an opening brace that
may still begin a placeholder. -/
def formatFrom (globals : Globals) : Option (List Char) → List Char → List Char
  | none, [] => []
  | none, c :: rest =>
    if c = '{' then formatFrom globals (some []) rest else c :: formatFrom globals none rest
  | some name, [] => '{' :: name.reverse
  | some name, c :: rest =>
    if c = '{' then '{' :: name.reverse ++ formatFrom globals (some []) rest
    else if c = '}' then resolve globals name.reverse ++ formatFrom globals none rest
    else formatFrom globals (some (c :: name)) rest

def format (globals : Globals) (text : String) : String :=
  String.ofList (formatFrom globals none text.toList)

mutual

def substitute (globals : Globals) : Value → Value
  | .str s => .str (format globals s)
  | .list items => .list (substituteList globals items)
  | .node scope provenance entries =>
    .node scope provenance (substituteEntries globals entries)
  | .null => .null
  | .bool b => .bool b
  | .int i => .int i
  | .float x => .float x

def substituteList (globals : Globals) : List Value → List Value
  | [] => []
  | v :: rest => substitute globals v :: substituteList globals rest

def substituteEntries (globals : Globals) : Entries → Entries
  | [] => []
  | (key, v) :: rest => (key, substitute globals v) :: substituteEntries globals rest

end

end Globals

end LayeredConfig

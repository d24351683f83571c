import LayeredConfig.Error
import LayeredConfig.Path

/-!
# Nodes addressed by keys

Reading, writing and removing by compound key, as the options of the node say: with `noKeyError` a
key that addresses nothing reads as `none`, and with `noCompoundKeys` it is one segment. Writing
through a value that is no mapping is an error under all options.
-/

namespace LayeredConfig

def Miss.toError : Miss → Error
  | .absent segment => .keyNotFound segment
  | .blocked segment => .keyMismatch segment

namespace Node

/-- The outcome of an access that failed: absence if the options say so. -/
def refuse {α : Type} (n : Node) (error : Error) : Except Error (Option α) :=
  if n.scope.options.noKeyError then .ok none else .error error

def resolve (n : Node) (key : Key) : Key :=
  if n.scope.options.noCompoundKeys then key.flattened else key

def lookup (n : Node) (path : List String) : Except Error (Option Value) :=
  match Path.find path n.entries with
  | .ok v => .ok (some v)
  | .error miss => n.refuse miss.toError

def contains (n : Node) (key : Key) : Bool := Path.contains (n.resolve key).segments n.entries

def getRaw (n : Node) (key : Key) : Except Error (Option Value) :=
  n.lookup (n.resolve key).segments

def node? (n : Node) (key : Key) : Except Error (Option Node) := do
  let key := n.resolve key
  match ← n.lookup key.segments with
  | none => .ok none
  | some v =>
    match v.asNode? with
    | some child => .ok (some child)
    | none => n.refuse (.keyMismatch key.text)

def setAt (n : Node) (path : List String) (value : Value) : Except Error Node :=
  match Path.write n.scope (value.rebind n.scope) path n.entries with
  | .ok entries => .ok { n with entries }
  | .error segment => .error (.keyMismatch segment)

def set (n : Node) (key : Key) (value : Value) : Except Error Node :=
  n.setAt (n.resolve key).segments value

def remove (n : Node) (key : Key) : Except Error (Option Value × Node) := do
  let key := n.resolve key
  let parents := key.parents
  if parents.isEmpty then
    .ok (n.entries.lookup key.last, { n with entries := Ordered.erase key.last n.entries })
  else
    match ← n.lookup parents with
    | none => .ok (none, n)
    | some (.node _ _ children) =>
      let entries := Path.modify (Ordered.erase key.last) parents n.entries
      .ok (children.lookup key.last, { n with entries })
    | some _ => return (← n.refuse (.keyMismatch (dotted parents)), n)

/-- Puts a value at a key of the node at another key; `none` if there is no such node. -/
def setWithin (n : Node) (key inner : Key) (value : Value) : Except Error (Option Node) := do
  match ← n.node? key with
  | none => .ok none
  | some child =>
    let child ← child.set inner value
    let entries := Path.modify (fun _ => child.entries) (n.resolve key).segments n.entries
    .ok (some { n with entries })

def child (n : Node) : Node := .empty n.scope

def rebind (n : Node) (scope : Scope) : Node :=
  { n with scope, entries := Value.rebindEntries scope n.entries }

/-- A node with another table in place of its own, and so each nested node that shares it. -/
def moveTo (n : Node) (table : TableId) : Node :=
  let moved := Scope.moved n.scope.table table
  { n with scope := moved n.scope, entries := Value.mapScopeEntries moved n.entries }

def recursiveKeys (n : Node) : List (String × List String) := pathTable n.entries

end Node

end LayeredConfig

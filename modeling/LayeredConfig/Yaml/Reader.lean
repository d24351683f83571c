import LayeredConfig.Error
import LayeredConfig.Ordered
import LayeredConfig.Yaml.Node
import LayeredConfig.Yaml.Resolution

/-!
# Reading YAML

Documents from nodes. An alias stands for a copy of the node with its anchor. Collections may be
nested 128 deep, and the number of copies is limited, so that a short text has no endless or huge
document. Names of entries are texts, whatever else they could be read as.
-/

namespace LayeredConfig.Yaml

/-! ## Anchors -/

/-- The anchors met so far. An anchor gets the number of the names known before it; under one
number the latest node counts. -/
structure Anchors where
  /-- The number of events: a scalar or an alias is one, a collection begins and ends with one. -/
  events : Nat
  numbers : List (String × Nat)
  starts : List (Nat × Nat)
  nodes : List (Nat × Node Nat)

namespace Anchors

def empty : Anchors := ⟨0, [], [], []⟩

def tick (a : Anchors) : Anchors := { a with events := a.events + 1 }

def enter (a : Anchors) (properties : Properties) : Anchors :=
  match properties.anchor with
  | none => a.tick
  | some name =>
    let number := a.numbers.length
    { a.tick with
      numbers := Ordered.insert name number a.numbers
      starts := (number, a.events) :: a.starts }

def leave (a : Anchors) (properties : Properties) (start : Nat) (node : Node Nat) : Anchors :=
  if properties.anchor.isSome then { a with nodes := (start, node) :: a.nodes } else a

def node? (a : Anchors) (number : Nat) : Option (Node Nat) :=
  (a.starts.lookup number).bind fun start => a.nodes.lookup start

end Anchors

mutual

/-- Replaces the names of aliases by numbers; an alias must come after the beginning of the node
with its anchor. -/
def link (a : Anchors) : Node String → Option (Node Nat × Anchors)
  | .alias name => (a.numbers.lookup name).map fun number => (.alias number, a.tick)
  | .scalar properties text plain =>
    let node := .scalar properties text plain
    some (node, (a.enter properties).leave properties a.events node)
  | .sequence properties items => do
    let (items, after) ← linkItems (a.enter properties) items
    let node := .sequence properties items
    return (node, after.tick.leave properties a.events node)
  | .mapping properties entries => do
    let (entries, after) ← linkEntries (a.enter properties) entries
    let node := .mapping properties entries
    return (node, after.tick.leave properties a.events node)

def linkItems (a : Anchors) : List (Node String) → Option (List (Node Nat) × Anchors)
  | [] => some ([], a)
  | item :: rest => do
    let (item, a) ← link a item
    let (rest, a) ← linkItems a rest
    return (item :: rest, a)

def linkEntries (a : Anchors) :
    List (Node String × Node String) → Option (List (Node Nat × Node Nat) × Anchors)
  | [] => some ([], a)
  | (key, value) :: rest => do
    let (key, a) ← link a key
    let (value, a) ← link a value
    let (rest, a) ← linkEntries a rest
    return ((key, value) :: rest, a)

end

/-! ## Documents -/

def depthLimit : Nat := 128

/-- The number of copies for each event of the text. -/
def copiesPerEvent : Nat := 100

abbrev Copying := StateT Nat Option

def follow (a : Anchors) : Node Nat → Copying (Node Nat)
  | .alias number => do
    modify (· + 1)
    if copiesPerEvent * a.events < (← get) then failure
    a.node? number
  | node => pure node

def scalarDocument? (properties : Properties) (text : String) (plain : Bool) : Option Document :=
  match properties.tag with
  | some tag => taggedDocument? tag text plain
  | none => untaggedDocument? text plain

def keyText (a : Anchors) (node : Node Nat) : Copying String := do
  match ← follow a node with
  | .scalar _ text _ => return text
  | _ => failure

def hasLocalTag (properties : Properties) : Bool :=
  properties.tag.any fun tag => tag.isLocal && tag.isText

def document (a : Anchors) : Nat → Node Nat → Copying Document
  | 0, node => do
    match ← follow a node with
    | .scalar properties text plain => scalarDocument? properties text plain
    | _ => failure
  | depth + 1, node => do
    match ← follow a node with
    | .scalar properties text plain => scalarDocument? properties text plain
    | .sequence properties items =>
      if hasLocalTag properties then failure
      return .list (← items.mapM (document a depth))
    | .mapping properties entries =>
      if hasLocalTag properties then failure
      let fields ← entries.mapM fun (key, value) => do
        return (← keyText a key, ← document a depth value)
      return .mapping (Ordered.ofList fields)
    | .alias _ => failure

def document? (text : String) : Option Document := do
  match ← NamedNode.ofTokens? (← tokens? text) with
  | none => return .null
  | some node =>
    let (node, anchors) ← link .empty node
    let (d, _) ← (document anchors depthLimit node).run 0
    return d

def read (text : String) : Except Error Document :=
  match document? text with
  | some d => .ok d
  | none => .error .yamlSyntax

end LayeredConfig.Yaml

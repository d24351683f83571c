import LayeredConfig.Json.Writer
import LayeredConfig.Ordered

/-!
# Values and nodes

A value is a scalar, a list, or a node: a mapping from names to values. Every node, nested ones
included, can be used as a configuration by itself, and so carries the scope it belongs to (the
globals table it resolves placeholders with, and the options it is read under) and a record of where
its contents came from. `Value.rebind` puts a value, and every node inside it, into a scope.
-/

namespace LayeredConfig

structure Options where
  noKeyError : Bool := false
  noCompoundKeys : Bool := false
  /-- The reserved entry for globals is an ordinary entry. -/
  noGlobals : Bool := false
deriving DecidableEq, Inhabited, Repr

structure TableId where
  index : Nat
deriving DecidableEq, Inhabited, Repr

/-- The table of nodes that belong to no session; it is always empty. -/
def TableId.loose : TableId := ⟨0⟩

/-- What all nodes of one tree have in common. -/
structure Scope where
  table : TableId
  options : Options
deriving DecidableEq, Inhabited, Repr

/-- A scope with another table, if it has the one that is moved. -/
def Scope.moved (old new : TableId) (scope : Scope) : Scope :=
  if scope.table = old then { scope with table := new } else scope

def Scope.loose : Scope := ⟨.loose, {}⟩

abbrev Arguments := List (String × List String)

structure Provenance where
  filename : Option String := none
  arguments : Option Arguments := none
  /-- The unnamed arguments after the program name. -/
  parameters : List String := []
  envPrefix : Option String := none
  /-- The keys and globals that arguments created, as they were spelled. -/
  fromArguments : List String := []
deriving DecidableEq, Inhabited, Repr

inductive Value where
  | null
  | bool (b : Bool)
  | int (i : Int64)
  | float (x : Binary64)
  | str (s : String)
  | list (items : List Value)
  | node (scope : Scope) (provenance : Provenance) (entries : List (String × Value))
deriving Inhabited

abbrev Entries := List (String × Value)

structure Node where
  scope : Scope
  provenance : Provenance
  entries : Entries
deriving Inhabited

inductive Kind where
  | null
  | bool
  | int
  | float
  | str
  | list
  | node
deriving DecidableEq, Inhabited, Repr

def Kind.name : Kind → String
  | .null => "null"
  | .bool => "bool"
  | .int => "int"
  | .float => "float"
  | .str => "str"
  | .list => "list"
  | .node => "dict"

def Node.toValue (n : Node) : Value := .node n.scope n.provenance n.entries

def Node.empty (scope : Scope) : Node := ⟨scope, {}, []⟩

namespace Value

def kind : Value → Kind
  | null => .null
  | bool _ => .bool
  | int _ => .int
  | float _ => .float
  | str _ => .str
  | list _ => .list
  | node .. => .node

def mapping (entries : Entries) : Value := .node .loose {} entries

/-! ## Views -/

def isNode (v : Value) : Bool := v.kind = .node

def asNode? : Value → Option Node
  | node scope provenance entries => some ⟨scope, provenance, entries⟩
  | _ => none

def asStr? : Value → Option String
  | str s => some s
  | _ => none

def asBool? : Value → Option Bool
  | bool b => some b
  | _ => none

def asInt? : Value → Option Int64
  | int i => some i
  | _ => none

/-- The number of a float, or the one nearest to an integer. -/
def asFloat? : Value → Option Binary64
  | float x => some x
  | int i => some (.ofInt i.toInt)
  | _ => none

def asList? : Value → Option (List Value)
  | list items => some items
  | _ => none

/-! ## Scope -/

mutual

/-- A value whose nodes are in the scopes that a function gives them. -/
def mapScope (f : Scope → Scope) : Value → Value
  | list items => .list (mapScopeList f items)
  | node scope provenance entries => .node (f scope) provenance (mapScopeEntries f entries)
  | null => .null
  | bool b => .bool b
  | int i => .int i
  | float x => .float x
  | str s => .str s

def mapScopeList (f : Scope → Scope) : List Value → List Value
  | [] => []
  | v :: rest => mapScope f v :: mapScopeList f rest

def mapScopeEntries (f : Scope → Scope) : Entries → Entries
  | [] => []
  | (key, v) :: rest => (key, mapScope f v) :: mapScopeEntries f rest

end

abbrev rebind (scope : Scope) (v : Value) : Value := mapScope (fun _ => scope) v

abbrev rebindList (scope : Scope) (items : List Value) : List Value :=
  mapScopeList (fun _ => scope) items

abbrev rebindEntries (scope : Scope) (entries : Entries) : Entries :=
  mapScopeEntries (fun _ => scope) entries

/-! ## Equality -/

mutual

/-- Equality of contents: floats compare as numbers, and nodes by their entries whatever their
order, scope and provenance. -/
def same : Value → Value → Bool
  | null, null => true
  | bool a, bool b => a == b
  | int a, int b => a == b
  | float a, float b => a.numericEq b
  | str a, str b => a == b
  | list as, list bs => sameList as bs
  | node _ _ as, node _ _ bs => as.length == bs.length && sameEntries as bs
  | _, _ => false

def sameList : List Value → List Value → Bool
  | [], [] => true
  | a :: as, b :: bs => same a b && sameList as bs
  | _, _ => false

def sameEntries : Entries → Entries → Bool
  | [], _ => true
  | (key, v) :: rest, others =>
    (match others.lookup key with
    | some w => same v w
    | none => false) && sameEntries rest others

end

/-! ## Documents -/

mutual

def toDocument : Value → Document
  | null => .null
  | bool b => .bool b
  | int i => .int i
  | float x => .ofFloat x
  | str s => .text s
  | list items => .list (toDocuments items)
  | node _ _ entries => .mapping (toFields entries)

def toDocuments : List Value → List Document
  | [] => []
  | v :: rest => toDocument v :: toDocuments rest

def toFields : Entries → List (String × Document)
  | [] => []
  | (key, v) :: rest => (key, toDocument v) :: toFields rest

end

mutual

/-- The value of a plain document, or the first integer in it that is out of range. -/
def ofDocument : Document → Except UInt64 Value
  | .null => .ok .null
  | .bool b => .ok (.bool b)
  | .int i => .ok (.int i)
  | .large n => .error n
  | .float x => .ok (.float x)
  | .text s => .ok (.str s)
  | .list items => (ofDocuments items).map .list
  | .mapping fields => (ofFields fields).map mapping

def ofDocuments : List Document → Except UInt64 (List Value)
  | [] => .ok []
  | d :: rest => do
    let v ← ofDocument d
    let vs ← ofDocuments rest
    return v :: vs

def ofFields : List (String × Document) → Except UInt64 Entries
  | [] => .ok []
  | (key, d) :: rest => do
    let v ← ofDocument d
    let vs ← ofFields rest
    return (key, v) :: vs

end

/-! ## Text -/

/-- The text that stands for a value in placeholders and on the command line. -/
def toText : Value → String
  | null => "null"
  | bool b => if b then "true" else "false"
  | int i => toString i.toInt
  | float x => FloatLayout.plain.render x
  | str s => s
  | list items => Json.compact (.list (toDocuments items))
  | node _ _ entries => Json.compact (.mapping (toFields entries))

end Value

def Node.same (a b : Node) : Bool := a.toValue.same b.toValue

end LayeredConfig

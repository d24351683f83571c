import LayeredConfig.Yaml.Token

/-!
# YAML nodes

The tree that the tokens of a single document make up: scalars, sequences and mappings with their
tags and anchors, and aliases. What is left out where a node is expected is an empty plain scalar.
-/

namespace LayeredConfig.Yaml

/-- What may stand in front of a node; the tag is written out in full. -/
structure Properties where
  anchor : Option String := none
  tag : Option Tag := none
deriving Inhabited

/-- A node; `α` is what tells the node that an alias stands for. -/
inductive Node (α : Type) where
  | alias (target : α)
  | scalar (properties : Properties) (text : String) (plain : Bool)
  | sequence (properties : Properties) (items : List (Node α))
  | mapping (properties : Properties) (entries : List (Node α × Node α))
deriving Inhabited

abbrev NamedNode := Node String

def NamedNode.nothing : NamedNode := .scalar {} "" true

abbrev NodeRead := Option (NamedNode × List Token)

abbrev ItemsRead := Option (List NamedNode × List Token)

abbrev EntriesRead := Option (List (NamedNode × NamedNode) × List Token)

/-! ## Directives -/

abbrev Handles := List (String × Tag)

def defaultHandles : Handles := [("!", .ofString "!"), ("!!", .ofString Tag.sharedFront)]

/-- The directives in front of a document: whether there is a version among them, the handles, and
the tokens that follow. There may be one version, 1.1 or 1.2, and no handle may repeat. -/
def readDirectives (versioned : Bool) (handles : Handles) :
    List Token → Option (Handles × List Token)
  | .directive (.version major minor) :: rest =>
    if versioned || major != 1 || !(minor == 1 || minor == 2) then none
    else readDirectives true handles rest
  | .directive (.tag handle front) :: rest =>
    if (handles.lookup handle).isSome then none
    else readDirectives versioned ((handle, front) :: handles) rest
  | rest => some (handles, rest)

def TagName.resolve? (handles : Handles) (tag : TagName) : Option Tag :=
  if tag.handle = "" then some tag.suffix
  else (handles.lookup tag.handle).map (·.append tag.suffix)

def readProperties (handles : Handles) : List Token → Option (Properties × List Token)
  | .anchor name :: .tag tag :: rest =>
    (tag.resolve? handles).map fun full => (⟨some name, some full⟩, rest)
  | .tag tag :: .anchor name :: rest =>
    (tag.resolve? handles).map fun full => (⟨some name, some full⟩, rest)
  | .anchor name :: rest => some (⟨some name, none⟩, rest)
  | .tag tag :: rest => (tag.resolve? handles).map fun full => (⟨none, some full⟩, rest)
  | rest => some ({}, rest)

/-! ## Nodes -/

/-- Where a node stands, as far as it matters for what may come next. -/
inductive Place where
  | flow
  | block
  /-- The key or value of a block mapping, whose sequence needs no indentation. -/
  | field
deriving DecidableEq

/-- Whether an entry of a block collection has no node of its own before this token. -/
def endsItem : List Token → Bool
  | .blockEntry :: _ | .blockEnd :: _ => true
  | _ => false

def endsIndentlessItem : List Token → Bool
  | .blockEntry :: _ | .key :: _ | .value :: _ | .blockEnd :: _ => true
  | _ => false

def endsField : List Token → Bool
  | .key :: _ | .value :: _ | .blockEnd :: _ => true
  | _ => false

def endsFlowItem : List Token → Bool
  | .flowEntry :: _ | .flowSequenceEnd :: _ => true
  | _ => false

def endsFlowKey : List Token → Bool
  | .value :: _ | .flowEntry :: _ | .flowMappingEnd :: _ => true
  | _ => false

def endsFlowValue : List Token → Bool
  | .flowEntry :: _ | .flowMappingEnd :: _ => true
  | _ => false

def orNothing (leftOut : List Token → Bool) (read : List Token → NodeRead)
    (tokens : List Token) : NodeRead :=
  if leftOut tokens then some (NamedNode.nothing, tokens) else read tokens

/-- Readers of the nodes and collections that begin with given tokens; each also gives the tokens
that follow. -/
structure Grammar where
  node : Place → List Token → NodeRead
  blockItems : List Token → ItemsRead
  indentlessItems : List Token → ItemsRead
  fields : List Token → EntriesRead
  flowItems : Bool → List Token → ItemsRead
  flowFields : Bool → List Token → EntriesRead

def consRead {α : Type} (item : α) (read : List Token → Option (List α × List Token))
    (tokens : List Token) : Option (List α × List Token) :=
  (read tokens).map fun (items, rest) => (item :: items, rest)

namespace Grammar

def nodeStep (g : Grammar) (handles : Handles) (place : Place) : List Token → NodeRead
  | .alias name :: rest => some (.alias name, rest)
  | tokens => do
    let (properties, tokens) ← readProperties handles tokens
    let inBlock := place != .flow
    match tokens with
    | .blockEntry :: _ =>
      if place = .field then
        (g.indentlessItems tokens).map fun (items, rest) => (.sequence properties items, rest)
      else bare properties tokens
    | .scalar text plain :: rest => some (.scalar properties text plain, rest)
    | .flowSequenceStart :: rest =>
      (g.flowItems true rest).map fun (items, rest) => (.sequence properties items, rest)
    | .flowMappingStart :: rest =>
      (g.flowFields true rest).map fun (entries, rest) => (.mapping properties entries, rest)
    | .blockSequenceStart :: rest =>
      if inBlock then
        (g.blockItems rest).map fun (items, rest) => (.sequence properties items, rest)
      else bare properties tokens
    | .blockMappingStart :: rest =>
      if inBlock then
        (g.fields rest).map fun (entries, rest) => (.mapping properties entries, rest)
      else bare properties tokens
    | _ => bare properties tokens
where
  /-- An empty scalar, which needs an anchor or a tag. -/
  bare (properties : Properties) (tokens : List Token) : NodeRead :=
    if properties.anchor.isSome || properties.tag.isSome then
      some (.scalar properties "" true, tokens)
    else none

def blockItemsStep (g : Grammar) : List Token → ItemsRead
  | .blockEntry :: rest => do
    let (item, rest) ← orNothing endsItem (g.node .block) rest
    consRead item g.blockItems rest
  | .blockEnd :: rest => some ([], rest)
  | _ => none

/-- The items of a sequence that is not indented below its key; no token marks its end. -/
def indentlessItemsStep (g : Grammar) : List Token → ItemsRead
  | .blockEntry :: rest => do
    let (item, rest) ← orNothing endsIndentlessItem (g.node .block) rest
    consRead item g.indentlessItems rest
  | rest => some ([], rest)

def fieldValue (g : Grammar) : List Token → NodeRead
  | .value :: rest => orNothing endsField (g.node .field) rest
  | rest => some (NamedNode.nothing, rest)

def fieldsStep (g : Grammar) : List Token → EntriesRead
  | .key :: rest => do
    let (key, rest) ← orNothing endsField (g.node .field) rest
    let (value, rest) ← g.fieldValue rest
    consRead (key, value) g.fields rest
  | .blockEnd :: rest => some ([], rest)
  | _ => none

/-- The tokens after the comma that must separate an entry from the one before. -/
def separated? (first : Bool) : List Token → Option (List Token)
  | .flowEntry :: rest => if first then some (.flowEntry :: rest) else some rest
  | rest => if first then some rest else none

/-- A single pair inside brackets, after its key mark. The token after a missing key is passed
over. -/
def flowPair (g : Grammar) (tokens : List Token) : NodeRead := do
  let missing := match tokens with
    | .value :: _ => true
    | _ => endsFlowItem tokens
  let (key, rest) ←
    if missing then some (NamedNode.nothing, tokens.drop 1) else g.node .flow tokens
  let (value, rest) ←
    match rest with
    | .value :: rest => orNothing endsFlowItem (g.node .flow) rest
    | rest => some (NamedNode.nothing, rest)
  return (.mapping {} [(key, value)], rest)

def flowItemsStep (g : Grammar) (first : Bool) : List Token → ItemsRead
  | .flowSequenceEnd :: rest => some ([], rest)
  | tokens => do
    match ← separated? first tokens with
    | .flowSequenceEnd :: rest => return ([], rest)
    | .key :: rest =>
      let (item, rest) ← g.flowPair rest
      consRead item (g.flowItems false) rest
    | rest =>
      let (item, rest) ← g.node .flow rest
      consRead item (g.flowItems false) rest

def flowValue (g : Grammar) : List Token → NodeRead
  | .value :: rest => orNothing endsFlowValue (g.node .flow) rest
  | rest => some (NamedNode.nothing, rest)

def flowFieldsStep (g : Grammar) (first : Bool) : List Token → EntriesRead
  | .flowMappingEnd :: rest => some ([], rest)
  | tokens => do
    match ← separated? first tokens with
    | .flowMappingEnd :: rest => return ([], rest)
    | .key :: rest =>
      let (key, rest) ← orNothing endsFlowKey (g.node .flow) rest
      let (value, rest) ← g.flowValue rest
      consRead (key, value) (g.flowFields false) rest
    | rest =>
      let (key, rest) ← g.node .flow rest
      consRead (key, NamedNode.nothing) (g.flowFields false) rest

def ofFuel (handles : Handles) : Nat → Grammar
  | 0 =>
    { node := fun _ _ => none, blockItems := fun _ => none, indentlessItems := fun _ => none,
      fields := fun _ => none, flowItems := fun _ _ => none, flowFields := fun _ _ => none }
  | fuel + 1 =>
    let g := ofFuel handles fuel
    { node := g.nodeStep handles, blockItems := g.blockItemsStep,
      indentlessItems := g.indentlessItemsStep, fields := g.fieldsStep,
      flowItems := g.flowItemsStep, flowFields := g.flowFieldsStep }

end Grammar

/-! ## Documents -/

def endsStream : List Token → Bool
  | .documentEnd :: rest => endsStream rest
  | [.streamEnd] => true
  | _ => false

/-- The node of a text with a single document, or none if the text is empty. -/
def NamedNode.ofTokens? (tokens : List Token) : Option (Option NamedNode) := do
  let read (handles : Handles) := (Grammar.ofFuel handles (3 * tokens.length + 3)).node .block
  match tokens with
  | [.streamEnd] => return none
  | .documentStart :: _ | .directive _ :: _ =>
    let (handles, rest) ← readDirectives false [] tokens
    let handles := handles ++ defaultHandles
    match rest with
    | .documentStart :: content =>
      let leftOut := match content with
        | .directive _ :: _ | .documentStart :: _ | .documentEnd :: _ | .streamEnd :: _ => true
        | _ => false
      let (node, rest) ← if leftOut then some (NamedNode.nothing, content) else read handles content
      if endsStream rest then return some node else none
    | _ => none
  | _ =>
    let (node, rest) ← read defaultHandles tokens
    if endsStream rest then return some node else none

end LayeredConfig.Yaml

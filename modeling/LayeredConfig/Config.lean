import LayeredConfig.Node
import LayeredConfig.Placeholder

/-!
# Configurations

A configuration is a tree together with the globals its placeholders are resolved with. In the
plain form the globals stand in front of the entries, as a mapping under a reserved name.
-/

namespace LayeredConfig

structure Config where
  tree : Node
  globals : Globals
deriving Inhabited

def globalsKey : String := "_globals"

/-- The plain form of entries, with the globals in front unless there are none. -/
def withGlobals (globals fields : List (String × Document)) : List (String × Document) :=
  let front := if globals.isEmpty then [] else [(globalsKey, Document.mapping globals)]
  Ordered.insertAll front fields

namespace Config

/-! ## Construction -/

def empty (options : Options) : Config := ⟨.empty ⟨.loose, options⟩, []⟩

/-- The configuration of entries. A mapping under the reserved name becomes the globals, unless the
options make it an ordinary entry. -/
def ofEntries (options : Options) (entries : Entries) : Config :=
  let scope : Scope := ⟨.loose, options⟩
  let bound (entries : Entries) : Node := ⟨scope, {}, Value.rebindEntries scope entries⟩
  match entries.lookup globalsKey with
  | some (.node _ _ globals) =>
    if options.noGlobals then ⟨bound entries, []⟩
    else ⟨bound (Ordered.erase globalsKey entries), globals⟩
  | _ => ⟨bound entries, []⟩

def ofDocument (options : Options) : Document → Except Error Config
  | .mapping fields =>
    match Value.ofFields fields with
    | .ok entries => .ok (ofEntries options entries)
    | .error n => .error (.invalidSource (.integerRange n))
  | .null => .ok (empty options)
  | other => .error (.invalidSource (.notMapping other.describe))

/-! ## Reading -/

/-- The value at a key with placeholders resolved; a node is returned as it is. -/
def get (c : Config) (key : Key) : Except Error (Option Value) :=
  (c.tree.getRaw key).map (·.map fun v => if v.isNode then v else c.globals.substitute v)

def resolved (c : Config) : Config :=
  { c with tree := { c.tree with entries := c.globals.substituteEntries c.tree.entries } }

def fields (c : Config) : List (String × Document) := Value.toFields c.tree.entries

def globalFields (c : Config) : List (String × Document) := Value.toFields c.globals

def toDocument (c : Config) (includeGlobals : Bool) : Document :=
  .mapping (withGlobals (if includeGlobals then c.globalFields else []) c.fields)

/-! ## Writing -/

def setGlobal (c : Config) (name : String) (value : Value) : Config :=
  { c with globals := Ordered.insert name value c.globals }

def removeGlobal (c : Config) (name : String) : Option Value × Config :=
  (c.globals.lookup name, { c with globals := Ordered.erase name c.globals })

def setAt (c : Config) (path : List String) (value : Value) : Except Error Config :=
  (c.tree.setAt path value).map fun tree => { c with tree }

def withProvenance (c : Config) (f : Provenance → Provenance) : Config :=
  { c with tree := { c.tree with provenance := f c.tree.provenance } }

def provenance (c : Config) : Provenance := c.tree.provenance

end Config

/-! ## Runs of changes -/

/-- A configuration after a run of changes, and the error that ended the run early. -/
structure Attempt where
  config : Config
  error : Option Error

namespace Attempt

def ofResult (c : Config) : Except Error Config → Attempt
  | .ok changed => ⟨changed, none⟩
  | .error error => ⟨c, some error⟩

def andThen (a : Attempt) (next : Config → Attempt) : Attempt :=
  match a.error with
  | none => next a.config
  | some _ => a

/-- Applies a change for each item in turn, up to the first that fails. -/
def each {ι : Type} (step : Config → ι → Except Error Config) : Config → List ι → Attempt
  | c, [] => ⟨c, none⟩
  | c, item :: rest =>
    match step c item with
    | .ok changed => each step changed rest
    | .error error => ⟨c, some error⟩

end Attempt

end LayeredConfig

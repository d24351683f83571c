import LayeredConfig.Arguments
import LayeredConfig.Disk
import LayeredConfig.Encoding

/-!
# Saving configurations

What is written is the plain form, with or without the globals, and with or without what arguments
created. A key that arguments created takes the mappings with it that are empty without it.
-/

namespace LayeredConfig

structure SaveOptions where
  format : Option FileFormat := none
  includeGlobals : Bool := true
  includeFromArguments : Bool := true
deriving Inhabited

/-- Removes the empty mappings above a path: the one at its first `depth` segments, then the one
above that, up to the first that is not empty. -/
def Node.pruneAbove (path : List String) : Nat → Node → Except Error Node
  | 0, n => .ok n
  | depth + 1, n =>
    match n.lookup (path.take (depth + 1)) with
    | .ok (some (.node _ _ [])) => do
      let (_, n) ← n.remove (.ofSegments (path.take (depth + 1)))
      pruneAbove path depth n
    | _ => .ok n

/-- Removes a key together with the mappings that are empty without it. -/
def Node.removePruned (n : Node) (key : Key) : Except Error Node := do
  let key := n.resolve key
  let (_, n) ← n.remove key
  n.pruneAbove key.segments (key.length - 1)

namespace Config

def dropCreated (c : Config) (name : String) : Except Error Config :=
  match Arguments.globalName? name with
  | some globalName => .ok (c.removeGlobal globalName).2
  | none => (c.tree.removePruned (.parse name)).map fun tree => { c with tree }

def withoutCreated (c : Config) : Except Error Config :=
  c.provenance.fromArguments.foldlM dropCreated c

def persisted (c : Config) (options : SaveOptions) : Except Error Document := do
  let kept ← if options.includeFromArguments then .ok c else c.withoutCreated
  return kept.toDocument options.includeGlobals

def encode (c : Config) (format : FileFormat) (options : SaveOptions) : Except Error String :=
  (c.persisted options).map format.render

/-- Writes a configuration to a path, or to the file it came from; gives the path written. -/
def save (disk : Disk) (path : Option String) (options : SaveOptions) (c : Config) :
    FileProgram String :=
  match path.or c.provenance.filename with
  | none => throw .missingSource
  | some path => do
    let format ← (options.format.elim (FileFormat.ofPath path) .ok : Except Error FileFormat)
    let text ← c.encode format options
    FileProgram.write disk path text
    return path

end Config

end LayeredConfig

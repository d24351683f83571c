import LayeredConfig.Update

/-!
# Changes

The ways to change a configuration as data, and their effects. A change that fails may leave part of
its effects behind if it is a run of smaller ones.
-/

namespace LayeredConfig

inductive Change where
  | set (key : Key) (value : Value)
  | remove (key : Key)
  /-- Puts a value at a key of the node at another key. -/
  | setWithin (key inner : Key) (value : Value)
  | setGlobal (name : String) (value : Value)
  | removeGlobal (name : String)
  | setFilename (path : Option String)
  /-- Parses the given tokens, or else those of the process. -/
  | parseArguments (tokens : Option (List String)) (aliases : Aliases)
  | clearArguments
  | updateFromArguments
  | updateFromEnvironment (env : Environment) (options : EnvOptions)
  | fullUpdate (env : Environment) (options : UpdateOptions)
deriving Inhabited

inductive Report where
  | done
  | removed (value : Option Value)
  /-- There is no node to write into. -/
  | noNode
deriving Inhabited

abbrev Changed := Config × Except Error Report

def Attempt.changed (a : Attempt) : Changed :=
  (a.config, match a.error with
    | none => .ok .done
    | some error => .error error)

/-- The outcome of a change of the tree that has all of its effect or none. -/
def Config.changeTree (c : Config) : Except Error (Node × Report) → Changed
  | .ok (tree, report) => ({ c with tree }, .ok report)
  | .error error => (c, .error error)

def Change.apply (processArguments : List String) (c : Config) : Change → Changed
  | .set key value => c.changeTree ((c.tree.set key value).map (·, .done))
  | .remove key =>
    c.changeTree ((c.tree.remove key).map fun (value, tree) => (tree, .removed value))
  | .setWithin key inner value =>
    c.changeTree ((c.tree.setWithin key inner value).map fun
      | some tree => (tree, .done)
      | none => (c.tree, .noNode))
  | .setGlobal name value => (c.setGlobal name value, .ok .done)
  | .removeGlobal name =>
    let (value, changed) := c.removeGlobal name
    (changed, .ok (.removed value))
  | .setFilename path => (c.withProvenance ({ · with filename := path }), .ok .done)
  | .parseArguments tokens aliases =>
    (Attempt.ofResult c (c.parseArguments aliases (tokens.getD processArguments))).changed
  | .clearArguments => (c.clearArguments, .ok .done)
  | .updateFromArguments => (c.updateFromArguments processArguments).changed
  | .updateFromEnvironment env options => (c.updateFromEnvironment env options).changed
  | .fullUpdate env options => (c.fullUpdate processArguments env options).changed

end LayeredConfig

import LayeredConfig.Environment

/-!
# Full updates

The three stages by which a configuration takes in its surroundings: arguments are parsed first, so
that they can name the prefix of environment variables, the environment is overlaid next, and the
arguments last, so that they win.
-/

namespace LayeredConfig

structure UpdateOptions where
  /-- The tokens to parse; those of the process if absent. -/
  tokens : Option (List String) := none
  aliases : Aliases := []
  env : EnvOptions := {}
deriving Inhabited

/-- Parses arguments, then overlays the environment, then the arguments. -/
def Config.fullUpdate (processArguments : List String) (env : Environment)
    (options : UpdateOptions) (c : Config) : Attempt :=
  let tokens := options.tokens.getD processArguments
  ((Attempt.ofResult c (c.parseArguments options.aliases tokens)).andThen
    (·.updateFromEnvironment env options.env)).andThen
    (·.updateFromArguments processArguments)

end LayeredConfig

import LayeredConfig.Loading
import LayeredConfig.Saving
import LayeredConfig.Update

/-!
# Commands

The commands of the inspection tool: printing a configuration with everything overlaid, printing one
value of it, listing the keys of a file, and writing a file in another format.
-/

namespace LayeredConfig

structure Source where
  file : Option String
  envPrefix : Option String
  /-- The tokens overlaid as arguments, without a program name. -/
  tokens : List String
deriving DecidableEq, Repr

inductive Command where
  /-- Prints the configuration; raw, with placeholders and globals as they are stored. -/
  | print (source : Source) (format : FileFormat) (raw : Bool)
  | get (key : String) (source : Source)
  | keys (file : String)
  /-- Writes the configuration in one file to another, in the format of its extension. -/
  | convert (input output : String) (includeGlobals : Bool)
deriving DecidableEq, Repr

def programName : String := "conffu"

def Source.build (files : Files) (env : Environment) (source : Source) : Except Error Config := do
  let tokens := programName :: source.tokens
  let loaded ← Config.load files tokens
    { file := source.file, tokens := some tokens, requireFile := false }
  let update : UpdateOptions := { tokens := some tokens, env := { front := source.envPrefix } }
  let attempt := loaded.fullUpdate tokens env update
  match attempt.error with
  | none => .ok attempt.config
  | some error => .error error

def Config.loadPlain (files : Files) (file : String) : Except Error Config :=
  load files [] { file := some file, parseArguments := false }

structure Outcome where
  output : Except Error String
  files : Files

def Outcome.reading (files : Files) (output : Except Error String) : Outcome := ⟨output, files⟩

/-- The outcome of a command that writes, as a program that changes the files in place. -/
def Outcome.writing (files : Files) (program : FileProgram String) : Outcome :=
  let (output, files) := program.outcome files
  ⟨output, files⟩

namespace Command

def printed (c : Config) (format : FileFormat) (raw : Bool) : Except Error String :=
  if raw then c.encode format {} else c.resolved.encode format { includeGlobals := false }

def got (c : Config) (key : String) : Except Error String := do
  match ← c.get (.parse key) with
  | some value => .ok value.toText
  | none => .error (.keyNotFound key)

def converting (disk : Disk) (input output : String) (includeGlobals : Bool) :
    FileProgram String := do
  let c ← Config.loadPlain (← getThe Files) input
  let path ← c.save disk (some output) { includeGlobals }
  return "wrote " ++ path

def listed (c : Config) : String := "\n".intercalate (Ordered.keys c.tree.recursiveKeys)

def run (files : Files) (env : Environment) (command : Command) (disk : Disk := .sound) : Outcome :=
  match command with
  | print source format raw => .reading files ((source.build files env).bind (printed · format raw))
  | get key source => .reading files ((source.build files env).bind (got · key))
  | keys file => .reading files ((Config.loadPlain files file).map listed)
  | convert input output includeGlobals =>
    .writing files (converting disk input output includeGlobals)

end Command

end LayeredConfig

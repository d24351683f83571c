import LayeredConfig.Arguments
import LayeredConfig.Encoding

/-!
# Loading configurations

A configuration is read from a text, from the content of a file, or from the file that the command
line or the caller names. The command line wins over the caller, and a format that is given wins
over the extension of the file.
-/

namespace LayeredConfig

structure LoadOptions where
  /-- The file, unless the arguments name another. -/
  file : Option String := none
  format : Option FileFormat := none
  parseArguments : Bool := true
  /-- The tokens to parse; those of the process if absent. -/
  tokens : Option (List String) := none
  aliases : Aliases := []
  requireFile : Bool := true
  tree : Options := {}
deriving Inhabited

namespace Config

def parse (format : FileFormat) (options : Options) (text : String) : Except Error Config := do
  let document ← format.read text
  ofDocument options document

def ofContent (format : FileFormat) (options : Options) : FileContent → Except Error Config
  | .text s => parse format options s
  | .bytes _ => .error .fileAccess

def ofFile (files : Files) (path : String) (format : Option FileFormat) (options : Options) :
    Except Error Config :=
  match files.find? path with
  | none => .error (.sourceNotFound path)
  | some content => do
    let format ← format.elim (FileFormat.ofPath path) .ok
    let c ← ofContent format options content
    return c.withProvenance ({ · with filename := some path })

def argumentsOfLoad (processArguments : List String) (options : LoadOptions) :
    Except Error (Option Arguments) :=
  if options.parseArguments then
    let tokens := options.tokens.getD processArguments
    (Arguments.parse (Arguments.withDefaults options.aliases) tokens).map some
  else .ok none

def fileOfArguments (arguments : Option Arguments) : Option String :=
  (arguments.bind (·.lookup Arguments.fileSwitch)).bind List.head?

def load (files : Files) (processArguments : List String) (options : LoadOptions) :
    Except Error Config := do
  let arguments ← argumentsOfLoad processArguments options
  let c ←
    match (fileOfArguments arguments).or options.file with
    | some path => ofFile files path options.format options.tree
    | none => if options.requireFile then .error .missingSource else .ok (empty options.tree)
  return c.withProvenance ({ · with arguments })

end Config

end LayeredConfig

import LayeredConfig.Coercion
import LayeredConfig.Config

/-!
# Command line arguments

A token that begins with a dash or a slash is a switch; the other tokens are values of the switch
before them, or of the empty name at the start. Parsed arguments overlay a configuration: a switch
names a global in braces or a key, an existing value keeps its kind, and what a switch creates is
recorded as coming from the arguments.
-/

namespace LayeredConfig

/-- Alternative names of switches with the names they stand for. -/
abbrev Aliases := List (String × String)

namespace Arguments

def fileSwitch : String := "cfg"

def prefixSwitch : String := "evp"

def defaultAliases : Aliases :=
  [("config", fileSwitch), ("configuration", fileSwitch),
   ("environment_variable_prefix", prefixSwitch), ("env_var_prefix", prefixSwitch)]

/-- The default aliases, overridden by the given ones. -/
def withDefaults (aliases : Aliases) : Aliases := Ordered.insertAll defaultAliases aliases

/-! ## Tokens -/

inductive Token where
  | switch (name : String)
  | value (text : String)
  /-- A lone dash or slash. -/
  | nameless (text : String)
deriving DecidableEq, Repr

/-- Two dashes, one dash or a slash begin a switch. -/
def Token.ofString (text : String) : Token :=
  match text.toList with
  | ['-'] | ['/'] => .nameless text
  | '-' :: '-' :: name => .switch (String.ofList name)
  | '-' :: name | '/' :: name => .switch (String.ofList name)
  | _ => .value text

def canonical (aliases : Aliases) (name : String) : String := (aliases.lookup name).getD name

/-- Adds values under a name, which then is present even if there are none. -/
def addValues (name : String) (values : List String) (arguments : Arguments) : Arguments :=
  Ordered.insert name ((arguments.lookup name).getD [] ++ values) arguments

/-- Collects the rest of the tokens; `current` is the latest switch. -/
def parseFrom (aliases : Aliases) (current : String) (arguments : Arguments) :
    List String → Except Error Arguments
  | [] => .ok arguments
  | text :: rest =>
    match Token.ofString text with
    | .nameless token => .error (.argumentSyntax token)
    | .switch name =>
      let name := canonical aliases name
      parseFrom aliases name (addValues name [] arguments) rest
    | .value v => parseFrom aliases current (addValues current [v] arguments) rest

def parse (aliases : Aliases) (tokens : List String) : Except Error Arguments :=
  parseFrom aliases "" [] tokens

def globalName? (switch : String) : Option String :=
  match switch.toList with
  | '{' :: rest =>
    if rest.getLast? = some '}' ∧ rest.length ≠ 1 then some (String.ofList rest.dropLast) else none
  | _ => none

end Arguments

/-! ## Overlaying arguments -/

/-- Records a key or global as created by arguments, once. -/
def Provenance.record (p : Provenance) (name : String) : Provenance :=
  if name ∈ p.fromArguments then p else { p with fromArguments := p.fromArguments ++ [name] }

namespace Config

/-- Parses tokens into the arguments of the tree; a switch that was there gets its new values. -/
def parseArguments (c : Config) (aliases : Aliases) (tokens : List String) : Except Error Config :=
  (Arguments.parse (Arguments.withDefaults aliases) tokens).map fun parsed =>
    c.withProvenance fun p =>
      { p with arguments := some (Ordered.insertAll (p.arguments.getD []) parsed) }

def clearArguments (c : Config) : Config := c.withProvenance ({ · with arguments := none })

def switchPath (c : Config) (switch : String) : List String :=
  if c.tree.scope.options.noCompoundKeys then [switch] else splitKey switch

def overlayGlobalSwitch (c : Config) (switch name : String) (proposal : Proposal) :
    Except Error Config := do
  let existing := c.globals.lookup name
  let value ← coerce proposal existing
  let changed := c.setGlobal name value
  return if existing.isSome then changed else changed.withProvenance (·.record switch)

def overlayKeySwitch (c : Config) (switch : String) (proposal : Proposal) :
    Except Error Config := do
  let path := c.switchPath switch
  let existing := Path.find? path c.tree.entries
  let value ← coerce proposal existing
  let changed ← c.setAt path value
  return if existing.isSome then changed else changed.withProvenance (·.record switch)

/-- Overlays one switch. The unnamed values become the parameters, without the program name. -/
def overlaySwitch (c : Config) (switch : String × List String) : Except Error Config :=
  let (name, values) := switch
  if name = "" then .ok (c.withProvenance ({ · with parameters := values.drop 1 }))
  else if name = Arguments.fileSwitch ∨ name = Arguments.prefixSwitch then .ok c
  else
    let proposal := Proposal.ofValues values
    match Arguments.globalName? name with
    | some globalName => c.overlayGlobalSwitch name globalName proposal
    | none => c.overlayKeySwitch name proposal

def overlayParsed (c : Config) : Attempt :=
  Attempt.each overlaySwitch c (c.provenance.arguments.getD [])

/-- Overlays the arguments; if none were parsed yet, those of the process are. -/
def updateFromArguments (processArguments : List String) (c : Config) : Attempt :=
  match c.provenance.arguments with
  | some _ => c.overlayParsed
  | none => (Attempt.ofResult c (c.parseArguments [] processArguments)).andThen overlayParsed

end Config

end LayeredConfig

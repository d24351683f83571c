import LayeredConfig.Arguments

/-!
# Environment variables

Without a prefix, the variables named like a known key, or like a known global in braces, overlay
its value. With a prefix, every variable that begins with it does: the rest of its name is a global
in braces, a known key, or a new key at the top level. What is written is settled before the first
value is.
-/

namespace LayeredConfig

/-- Variables in order, and whether their names are told apart by case. -/
structure Environment where
  vars : List (String × String)
  caseInsensitive : Bool
deriving Inhabited

namespace Environment

def sameName (env : Environment) (a b : String) : Bool :=
  if env.caseInsensitive then agreeUpToCase a.toList b.toList else a == b

/-- The value of the first variable of a name. -/
def var? (env : Environment) (name : String) : Option String :=
  (env.vars.find? fun entry => env.sameName entry.1 name).map Prod.snd

def restAfter? (same : Char → Char → Bool) : List Char → List Char → Option (List Char)
  | [], rest => some rest
  | _ :: _, [] => none
  | p :: ps, c :: cs => if same p c then restAfter? same ps cs else none

def afterPrefix? (env : Environment) (front name : String) : Option String :=
  let same (a b : Char) : Bool :=
    if env.caseInsensitive then a.toLower == b.toLower else a == b
  (restAfter? same front.toList name.toList).map String.ofList

end Environment

structure EnvOptions where
  /-- The prefix; the one among the arguments, or that of the last overlay, if absent. -/
  front : Option String := none
  only : Option (List String) := none
  excluded : List String := []
deriving Inhabited

namespace EnvOptions

def excludes (options : EnvOptions) (env : Environment) (name : String) : Bool :=
  options.excluded.any fun excluded => env.sameName excluded name

end EnvOptions

inductive Target where
  | key (path : List String)
  /-- A global, which is created if it is missing only if `create` says so. -/
  | global (name : String) (create : Bool)
deriving DecidableEq, Repr

structure Overlay where
  target : Target
  text : String
deriving DecidableEq, Repr

namespace Config

def envPrefix (c : Config) (options : EnvOptions) : String :=
  let fromArguments :=
    (c.provenance.arguments.bind (·.lookup Arguments.prefixSwitch)).bind List.head?
  (options.front.or (fromArguments.or c.provenance.envPrefix)).getD ""

/-! ## Without a prefix -/

def namedTarget (c : Config) (name : String) : Target :=
  match Arguments.globalName? name with
  | some global => .global global false
  | none => .key ((c.tree.recursiveKeys.lookup name).getD (c.switchPath name))

/-- The known keys whose values are no mappings, then the known globals. -/
def knownTargets (c : Config) : List (String × Target) :=
  let isLeaf (path : List String) : Bool :=
    !((Path.find? path c.tree.entries).any Value.isNode)
  ((c.tree.recursiveKeys.filter fun entry => isLeaf entry.2).map fun entry =>
      (entry.1, Target.key entry.2))
    ++ c.globals.map fun entry => ("\x7b" ++ entry.1 ++ "\x7d", Target.global entry.1 false)

def plainOverlays (c : Config) (env : Environment) (options : EnvOptions) : List Overlay :=
  let candidates :=
    match options.only with
    | some names => names.map fun name => (name, c.namedTarget name)
    | none => c.knownTargets
  candidates.filterMap fun candidate =>
    if options.excludes env candidate.1 then none
    else (env.var? candidate.1).map fun text => ⟨candidate.2, text⟩

/-! ## With a prefix -/

def prefixedTarget (c : Config) (env : Environment) (rest : String) : Target :=
  match Arguments.globalName? rest with
  | some global => .global global true
  | none =>
    match c.tree.recursiveKeys.find? fun entry => env.sameName entry.1 rest with
    | some entry => .key entry.2
    | none => .key [rest]

/-- The variables with a prefix: the whole name, the rest of it, and the text. -/
def prefixedVars (env : Environment) (options : EnvOptions) (front : String) :
    List (String × String × String) :=
  match options.only with
  | some names =>
    names.filterMap fun rest =>
      (env.var? (front ++ rest)).map fun text => (front ++ rest, rest, text)
  | none =>
    env.vars.filterMap fun entry =>
      (env.afterPrefix? front entry.1).map fun rest => (entry.1, rest, entry.2)

def prefixedOverlays (c : Config) (env : Environment) (options : EnvOptions) (front : String) :
    List Overlay :=
  (prefixedVars env options front).filterMap fun (name, rest, text) =>
    if rest = "" ∨ options.excludes env name ∨ options.excludes env rest then none
    else some ⟨c.prefixedTarget env rest, text⟩

/-! ## Applying overlays -/

def applyOverlay (c : Config) (overlay : Overlay) : Except Error Config :=
  match overlay.target with
  | .key path => do
    let value ← coerce (.text overlay.text) (Path.find? path c.tree.entries)
    c.setAt path value
  | .global name create => do
    let existing := c.globals.lookup name
    if existing.isNone && !create then return c
    let value ← coerce (.text overlay.text) existing
    return c.setGlobal name value

def overlays (c : Config) (env : Environment) (options : EnvOptions) : List Overlay :=
  let front := c.envPrefix options
  if front = "" then c.plainOverlays env options else c.prefixedOverlays env options front

/-- Overlays an environment, and keeps the prefix if all went well. -/
def updateFromEnvironment (env : Environment) (options : EnvOptions) (c : Config) : Attempt :=
  let front := c.envPrefix options
  (Attempt.each applyOverlay c (c.overlays env options)).andThen fun changed =>
    ⟨changed.withProvenance ({ · with envPrefix := some front }), none⟩

end Config

end LayeredConfig

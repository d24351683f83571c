import LayeredConfig.Command

/-!
# Command lines

The command line of the inspection tool: switches, a command with its operands, and after two dashes
the tokens that are overlaid as arguments. A switch takes its value from the same token or the next
one, and does not repeat on either side of the command. Any other command line, one that asks for
help included, is refused.
-/

namespace LayeredConfig

structure Invocation where
  verbose : Bool
  log : String
  command : Command
deriving DecidableEq, Repr

namespace CommandLine

structure Switch where
  letter : Option Char
  word : String
  takesValue : Bool
deriving DecidableEq

namespace Switch

def verbose : Switch := ⟨some 'v', "verbose", false⟩
def log : Switch := ⟨some 'l', "log", true⟩
def envPrefix : Switch := ⟨some 'p', "prefix", true⟩
def format : Switch := ⟨some 'f', "format", true⟩
def raw : Switch := ⟨none, "raw", false⟩
def noGlobals : Switch := ⟨none, "no-globals", false⟩

def everywhere : List Switch := [verbose, log]

def ofSource : List Switch := everywhere ++ [envPrefix]

end Switch

/-- Switches with their values; those that take none have an empty one. -/
abbrev Settings := List (Switch × String)

/-! ## Tokens -/

inductive Word where
  | separator
  /-- Switches, and the last one apart if its value is still to come. -/
  | switches (settings : Settings) (pending : Option Switch)
  | operand (text : String)

def letters? (known : List Switch) : List Char → Option (Settings × Option Switch)
  | [] => some ([], none)
  | c :: rest => do
    let switch ← known.find? fun switch => switch.letter == some c
    if switch.takesValue then
      match rest with
      | [] => some ([], some switch)
      | '=' :: value => some ([(switch, String.ofList value)], none)
      | value => some ([(switch, String.ofList value)], none)
    else
      let (settings, pending) ← letters? known rest
      some ((switch, "") :: settings, pending)

def word? (known : List Switch) (cs : List Char) : Option (Settings × Option Switch) := do
  let (word, tail) := cs.span (· ≠ '=')
  let switch ← known.find? fun switch => switch.word.toList == word
  match tail, switch.takesValue with
  | [], true => some ([], some switch)
  | [], false => some ([(switch, "")], none)
  | _ :: value, true => some ([(switch, String.ofList value)], none)
  | _ :: _, false => none

/-- What a token is; nothing if it is a switch that is not known. -/
def Word.ofToken? (known : List Switch) (token : String) : Option Word :=
  match token.toList with
  | ['-', '-'] => some .separator
  | '-' :: '-' :: cs => (word? known cs).map fun (settings, pending) => .switches settings pending
  | '-' :: c :: cs =>
    (letters? known (c :: cs)).map fun (settings, pending) => .switches settings pending
  | _ => some (.operand token)

/-! ## Reading tokens -/

structure Reading where
  settings : Settings := []
  operands : List String := []
  /-- The tokens after a command or after two dashes. -/
  tail : List String := []

namespace Reading

def value? (r : Reading) (switch : Switch) : Option String := r.settings.lookup switch

def has (r : Reading) (switch : Switch) : Bool := (r.value? switch).isSome

def isDistinct (r : Reading) : Bool := decide (r.settings.map Prod.fst).Nodup

/-- Reads tokens up to two dashes, or to the first operand if that is a command. -/
def extend (known : List Switch) (beforeCommand : Bool) :
    Option Switch → Reading → List String → Option Reading
  | none, r, [] => some r
  | some _, _, [] => none
  | pending, r, token :: tail =>
    match Word.ofToken? known token, pending with
    | some (.operand text), some switch =>
      extend known beforeCommand none { r with settings := r.settings ++ [(switch, text)] } tail
    | some (.operand text), none =>
      let r := { r with operands := r.operands ++ [text] }
      if beforeCommand then some { r with tail } else extend known beforeCommand none r tail
    | some (.switches settings next), none =>
      extend known beforeCommand next { r with settings := r.settings ++ settings } tail
    | some .separator, none => some { r with tail }
    | _, _ => none

/-- Reads tokens; a switch that repeats is refused. -/
def ofTokens? (known : List Switch) (beforeCommand : Bool) (tokens : List String) :
    Option Reading :=
  (extend known beforeCommand none {} tokens).filter isDistinct

end Reading

/-! ## Commands -/

def path? (text : String) : Option String := if text = "" then none else some text

def source? (r : Reading) : List String → Option Source
  | [] => some ⟨none, r.value? .envPrefix, r.tail⟩
  | [file] => (path? file).map fun file => ⟨some file, r.value? .envPrefix, r.tail⟩
  | _ => none

def switchesOf? : String → Option (List Switch)
  | "show" => some (Switch.ofSource ++ [.format, .raw])
  | "get" => some Switch.ofSource
  | "keys" => some Switch.everywhere
  | "convert" => some (Switch.everywhere ++ [.noGlobals])
  | _ => none

/-- The command of a name. For commands that overlay nothing, two dashes only say that no switch
follows. -/
def command? (name : String) (r : Reading) : Option Command :=
  match name, r.operands, r.operands ++ r.tail with
  | "show", operands, _ => do
    let source ← source? r operands
    let format ← (FileFormat.ofName ((r.value? .format).getD "json")).toOption
    some (.print source format (r.has .raw))
  | "get", key :: operands, _ => (source? r operands).map (.get key)
  | "keys", _, [file] => (path? file).map .keys
  | "convert", _, [input, output] => do
    some (.convert (← path? input) (← path? output) (!r.has .noGlobals))
  | _, _, _ => none

def defaultLog : String := "2"

end CommandLine

open CommandLine in
/-- The invocation that a command line means. A setting after the command wins over one before. -/
def Invocation.ofTokens? (tokens : List String) : Option Invocation := do
  let before ← Reading.ofTokens? Switch.everywhere true tokens
  match before.operands with
  | [name] =>
    let after ← Reading.ofTokens? (← switchesOf? name) false before.tail
    let log := ((after.value? .log).or (before.value? .log)).getD defaultLog
    some ⟨before.has .verbose || after.has .verbose, log, ← command? name after⟩
  | _ => none

end LayeredConfig

import LayeredConfig.Key
import LayeredConfig.Value

/-!
# Paths

Reading and writing at a path of segments below the entries of a node. Only mappings are entered,
not lists. A write creates the mappings that are missing above its target, and fails without a
change where something else stands in the way.
-/

namespace LayeredConfig

inductive Miss where
  /-- There is no entry for this segment. -/
  | absent (segment : String)
  /-- The path goes on below this segment, whose value is no mapping. -/
  | blocked (segment : String)
deriving DecidableEq, Repr

namespace Path

def find : List String → Entries → Except Miss Value
  | [], _ => .error (.absent "")
  | [segment], entries =>
    match entries.lookup segment with
    | some v => .ok v
    | none => .error (.absent segment)
  | segment :: rest, entries =>
    match entries.lookup segment with
    | some (.node _ _ children) => find rest children
    | some _ => .error (.blocked segment)
    | none => .error (.absent segment)

def find? (path : List String) (entries : Entries) : Option Value := (find path entries).toOption

def contains (path : List String) (entries : Entries) : Bool := (find? path entries).isSome

/-- Puts a value at a path; the mappings created on the way belong to `scope`. The error is the
first segment that is in the way. -/
def write (scope : Scope) (value : Value) : List String → Entries → Except String Entries
  | [], entries => .ok entries
  | [segment], entries => .ok (Ordered.insert segment value entries)
  | segment :: rest, entries =>
    match entries.lookup segment with
    | some (.node inner provenance children) =>
      (write scope value rest children).map fun written =>
        Ordered.insert segment (.node inner provenance written) entries
    | some _ => .error segment
    | none =>
      (write scope value rest []).map fun written =>
        Ordered.insert segment (.node scope {} written) entries

/-- Applies a function to the entries of the mapping at a path; nothing happens if there is no
mapping. -/
def modify (f : Entries → Entries) : List String → Entries → Entries
  | [], entries => f entries
  | segment :: rest, entries =>
    match entries.lookup segment with
    | some (.node scope provenance children) =>
      Ordered.insert segment (.node scope provenance (modify f rest children)) entries
    | _ => entries

end Path

/-! ## The table of paths -/

mutual

/-- Adds every path below some entries to a table from dotted forms to paths: each entry before
those below it, and a later path in the place of an earlier one with the same dotted form. -/
def addPaths (table : List (String × List String)) : Entries → List (String × List String)
  | [] => table
  | (key, v) :: rest =>
    let below := (pathsBelow v).map fun entry => (key ++ "." ++ entry.1, key :: entry.2)
    addPaths (Ordered.insertAll (Ordered.insert key [key] table) below) rest

def pathsBelow : Value → List (String × List String)
  | .node _ _ entries => addPaths [] entries
  | _ => []

end

def pathTable (entries : Entries) : List (String × List String) := addPaths [] entries

end LayeredConfig

import LayeredConfig.Ordered

/-!
# Files

Files under their paths. A path is relative to a current directory unless it begins with a slash. A
directory exists as far as files need it. Empty steps and single dots in a path change nothing,
except that a path which ends in one names a directory; two dots lead up. Paths and names have a
limited length, and hold no zero byte.
-/

namespace LayeredConfig

inductive FileContent where
  | text (s : String)
  | bytes (data : ByteArray)
deriving Inhabited

def FileContent.ofBytes (data : ByteArray) : FileContent :=
  match String.fromUTF8? data with
  | some s => .text s
  | none => .bytes data

def FileContent.text? : FileContent → Option String
  | .text s => some s
  | .bytes _ => none

abbrev Files := List (String × FileContent)

namespace Files

def steps (path : String) : List String :=
  (splitAt path.toList).map String.ofList
where
  splitAt : List Char → List (List Char)
    | [] => [[]]
    | c :: rest =>
      if c = '/' then [] :: splitAt rest
      else
        match splitAt rest with
        | [] => [[c]]
        | first :: others => (c :: first) :: others

def rootName : String := "/"

/-- The directory that a path starts from, if it is not the current one, and the steps that lead
somewhere. -/
def names (path : String) : List String :=
  (if path.startsWith "/" then [rootName] else [])
    ++ (steps path).filter fun step => step ≠ "" ∧ step ≠ "."

/-- The last name of a path, unless it is two dots. -/
def fileName? (path : String) : Option String := (names path).getLast?.filter (· ≠ "..")

/-- What follows the last dot of the last name, if something comes before that dot. -/
def extension? (path : String) : Option String :=
  (fileName? path).bind fun name =>
    let reversed := name.toList.reverse
    let ending := reversed.takeWhile (· ≠ '.')
    match reversed.dropWhile (· ≠ '.') with
    | _ :: _ :: _ => some (String.ofList ending.reverse)
    | _ => none

/-- The number of bytes that a path may have. -/
def pathLimit : Nat := 4095

def nameLimit : Nat := 255

def isUsable (path : String) : Bool :=
  !path.toList.contains '\x00' && path.utf8ByteSize ≤ pathLimit &&
    (steps path).all fun step => step.utf8ByteSize ≤ nameLimit

def endsAsDirectory (path : String) : Bool :=
  match (steps path).getLast? with
  | some step => step = "" || step = "." || step = ".."
  | none => true

def isDirectory (files : Files) (directory : List String) : Bool :=
  directory.isEmpty || files.any fun file =>
    let here := names file.1
    directory.isPrefixOf here && directory.length < here.length

def above : List String → List String
  | [] => [".."]
  | name :: rest =>
    if name = ".." then ".." :: name :: rest else if name = rootName then [name] else rest

/-- Follows names from a directory, given as the reversed names that lead to it; nothing if a step
on the way is no directory. -/
def follow (files : Files) : List String → List String → Option (List String)
  | here, [] => some here.reverse
  | here, name :: rest =>
    if name = ".." then follow files (above here) rest
    else if rest.isEmpty || isDirectory files (name :: here).reverse then
      follow files (name :: here) rest
    else none

def locate (files : Files) (path : String) : Option (List String) := follow files [] (names path)

def find? (files : Files) (path : String) : Option FileContent :=
  if !isUsable path || endsAsDirectory path then none
  else (locate files path).bind fun target =>
    (List.find? (fun file => names file.1 == target) files).map Prod.snd

def put (path : String) (target : List String) (content : FileContent) : Files → Files
  | [] => [(path, content)]
  | file :: rest =>
    if names file.1 = target then (file.1, content) :: rest
    else file :: put path target content rest

def fill (files : Files) (place : List String) (content : FileContent) : Files :=
  put ("/".intercalate place) place content files

/-- The place where a path lets a file be written: none if its directory is missing, or the path
names a directory or cannot name anything. -/
def place? (files : Files) (path : String) : Option (List String) :=
  if !isUsable path || endsAsDirectory path then none
  else (locate files path).filter fun place => !(place.isEmpty || isDirectory files place)

end Files

end LayeredConfig

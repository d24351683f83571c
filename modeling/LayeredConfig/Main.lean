import LayeredConfig.CommandLine

/-!
# The inspection tool

Runs a command on the files that the command line names, and writes the file that it changed. No log
is kept, whatever the command line says about it.
-/

namespace LayeredConfig.Tool

def fileAt (path : String) : IO Files := do
  try return [(path, .ofBytes (← IO.FS.readBinFile path))]
  catch _ => return []

def directoryOf (path : String) : String :=
  String.ofList (path.toList.reverse.dropWhile (· ≠ '/')).reverse

/-- A name that no file can have; it stands for a directory that exists. -/
def directoryMark : String := "\x00"

/-- What stands for the directory of a path, if it exists. Under a path that ends in a slash only a
directory can be opened. -/
def directoryAt (path : String) : IO Files := do
  let directory := directoryOf path
  if directory = "" then return []
  try
    let _ ← IO.FS.Handle.mk directory .read
    return [(directory ++ directoryMark, .bytes .empty)]
  catch _ => return []

def filesNamed (tokens : List String) : IO Files := do
  let found ← tokens.eraseDups.mapM fun token => return (← fileAt token) ++ (← directoryAt token)
  return found.flatten

/-- The variables in a block of them, each ended by a zero byte. -/
def variablesOf (block : String) : List (String × String) :=
  (block.splitOn "\x00").filterMap fun entry =>
    let (name, value) := entry.toList.span (· ≠ '=')
    if name.isEmpty then none else some (String.ofList name, String.ofList (value.drop 1))

def environment : IO Environment := do
  match ← fileAt "/proc/self/environ" with
  | [(_, .text block)] => return ⟨Ordered.ofList (variablesOf block), false⟩
  | _ => return ⟨[], false⟩

/-- Writes the texts that differ from those before. -/
def writeChanged (before after : Files) : IO Unit :=
  after.forM fun (path, content) =>
    match content.text? with
    | some text =>
      if (before.lookup path).bind FileContent.text? = some text then pure ()
      else IO.FS.writeFile path text
    | none => pure ()

def usage : String :=
  "usage: conffu [-v] [-l LOG] COMMAND\n" ++
  "  show [FILE] [-p PREFIX] [-f FORMAT] [--raw] [-- TOKENS]\n" ++
  "  get KEY [FILE] [-p PREFIX] [-- TOKENS]\n" ++
  "  keys FILE\n" ++
  "  convert INPUT OUTPUT [--no-globals]"

/-- Runs the tool; the exit code tells a command that failed from one that was not understood. -/
def run (tokens : List String) : IO UInt32 := do
  match Invocation.ofTokens? tokens with
  | none =>
    IO.eprintln usage
    return 2
  | some invocation =>
    let files ← filesNamed tokens
    let outcome := invocation.command.run files (← environment)
    writeChanged files outcome.files
    match outcome.output with
    | .error error =>
      IO.eprintln ("error: " ++ error.message)
      return 1
    | .ok output =>
      IO.println output
      return 0

end LayeredConfig.Tool

def main (tokens : List String) : IO UInt32 := LayeredConfig.Tool.run tokens

import LayeredConfig.Error
import LayeredConfig.Files

/-!
# Writing files

A file is written in two steps: it is opened, which empties it or adds it, and takes the text. The
disk may fail at the second. So whatever writes files is a program that changes them in place, and
what it has changed before an error stays changed.
-/

namespace LayeredConfig

/-- How far texts get that are written to open files. -/
structure Disk where
  /-- The number of bytes of a text after which the writing to a path breaks off, if it does. -/
  breaksAfter : String → String → Option Nat

def Disk.sound : Disk := ⟨fun _ _ => none⟩

/-- The content of a file that took the first bytes of a text. -/
def FileContent.cut (text : String) (bytes : Nat) : FileContent :=
  .ofBytes (text.toUTF8.extract 0 bytes)

abbrev FileProgram := ExceptT Error (StateM Files)

namespace FileProgram

def outcome {α : Type} (program : FileProgram α) (files : Files) : Except Error α × Files :=
  program.run.run files

/-- Opens a file for writing, and gives its place. -/
def create (path : String) : FileProgram (List String) := do
  match (← getThe Files).place? path with
  | none => throw .fileAccess
  | some place =>
    modify (·.fill place (.text ""))
    return place

def write (disk : Disk) (path text : String) : FileProgram Unit := do
  let place ← create path
  match disk.breaksAfter path text with
  | none => modify (·.fill place (.text text))
  | some bytes =>
    modify (·.fill place (.cut text bytes))
    throw .fileAccess

end FileProgram

end LayeredConfig

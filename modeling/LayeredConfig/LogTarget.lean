/-!
# Log targets

Where log output goes.
-/

namespace LayeredConfig

inductive LogTarget where
  | off
  | stdout
  | stderr
  | file (path : String)
deriving DecidableEq, Repr

/-- The target that a number or a word stands for; any other text is the path of a file. -/
def LogTarget.ofString : String → LogTarget
  | "0" | "off" => .off
  | "1" | "stdout" => .stdout
  | "2" | "stderr" => .stderr
  | path => .file path

end LayeredConfig

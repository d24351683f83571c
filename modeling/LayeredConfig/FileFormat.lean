import LayeredConfig.Error
import LayeredConfig.Files
import LayeredConfig.Text.AsciiCase

/-!
# File formats

The formats of configuration files, by name and by the extension of a path.
-/

namespace LayeredConfig

inductive FileFormat where
  | json
  | yaml
  | xml
deriving DecidableEq, Repr, Inhabited

namespace FileFormat

def name : FileFormat → String
  | json => "json"
  | yaml => "yaml"
  | xml => "xml"

def ofExtension? (extension : String) : Option FileFormat :=
  match lowered extension with
  | "json" => some .json
  | "yaml" | "yml" => some .yaml
  | "xml" => some .xml
  | _ => none

def ofName (name : String) : Except Error FileFormat :=
  match ofExtension? name with
  | some format => .ok format
  | none => .error (.unsupportedFormat (.unknownName name))

def ofPath (path : String) : Except Error FileFormat :=
  match (Files.extension? path).bind ofExtension? with
  | some format => .ok format
  | none => .error (.unsupportedFormat (.unknownExtension path))

end FileFormat

end LayeredConfig

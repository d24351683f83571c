import LayeredConfig.Text.Quoted
import LayeredConfig.Value

/-!
# Errors

The causes for which an operation on a configuration fails, the code under which programs know
each, and its message.
-/

namespace LayeredConfig

/-- Why a document is not a configuration although it could be read. -/
inductive SourceFault where
  /-- The whole document is no mapping; what it is, in words. -/
  | notMapping (found : String)
  | integerRange (n : UInt64)
  /-- An XML element whose text does not denote a value of the type it is marked with. -/
  | badLeaf (element text typeName : String)
  | unknownType (typeName : String)
deriving DecidableEq, Repr

inductive XmlFault where
  | malformed
  | unexpectedEnd
  | noRoot
  | unknownEntity (name : String)
deriving DecidableEq, Repr

inductive FormatFault where
  | unknownName (name : String)
  | unknownExtension (path : String)
deriving DecidableEq, Repr

inductive Error where
  | argumentSyntax (token : String)
  | keyNotFound (key : String)
  | keyMismatch (key : String)
  | coercion (text : String) (target : Kind)
  | sourceNotFound (path : String)
  | missingSource
  | unsupportedFormat (fault : FormatFault)
  | invalidSource (fault : SourceFault)
  /-- A file cannot be read or written, or is not text. -/
  | fileAccess
  | jsonSyntax
  | yamlSyntax
  | xmlSyntax (fault : XmlFault)
deriving DecidableEq, Repr

inductive ErrorCode where
  | keyNotFound
  | keyMismatch
  | argumentSyntax
  | coercion
  | sourceNotFound
  | missingSource
  | unsupportedFormat
  | invalidSource
  | ioError
  | parseError
deriving DecidableEq, Repr

def ErrorCode.name : ErrorCode → String
  | .keyNotFound => "KEY_NOT_FOUND"
  | .keyMismatch => "KEY_MISMATCH"
  | .argumentSyntax => "ARGUMENT_SYNTAX"
  | .coercion => "COERCION"
  | .sourceNotFound => "SOURCE_NOT_FOUND"
  | .missingSource => "MISSING_SOURCE"
  | .unsupportedFormat => "UNSUPPORTED_FORMAT"
  | .invalidSource => "INVALID_SOURCE"
  | .ioError => "IO_ERROR"
  | .parseError => "PARSE_ERROR"

def SourceFault.message : SourceFault → String
  | notMapping found => "expected a mapping at the top level, found " ++ found
  | integerRange n => "integer " ++ toString n.toNat ++ " does not fit in 64 signed bits"
  | badLeaf element text typeName =>
    "element <" ++ element ++ "> holds " ++ quoted text ++ ", not a valid " ++ typeName
  | unknownType typeName => "unknown type " ++ typeName ++ " in xml"

/-- What follows the words XML error; nothing for faults of the markup itself. -/
def XmlFault.detail : XmlFault → String
  | malformed => ""
  | unexpectedEnd => ": unexpected end of document"
  | noRoot => ": document has no root element"
  | unknownEntity name => ": unknown entity &" ++ name ++ ";"

def FormatFault.message : FormatFault → String
  | unknownName name => name
  | unknownExtension path => "cannot tell the format of " ++ path ++ " from its extension"

namespace Error

def code : Error → ErrorCode
  | argumentSyntax _ => .argumentSyntax
  | keyNotFound _ => .keyNotFound
  | keyMismatch _ => .keyMismatch
  | coercion .. => .coercion
  | sourceNotFound _ => .sourceNotFound
  | missingSource => .missingSource
  | unsupportedFormat _ => .unsupportedFormat
  | invalidSource _ => .invalidSource
  | fileAccess => .ioError
  | jsonSyntax | yamlSyntax | xmlSyntax _ => .parseError

def message : Error → String
  | argumentSyntax token => "syntax error in argument: " ++ token
  | keyNotFound key => "key not found: " ++ key
  | keyMismatch key => "multi-part key, but `" ++ key ++ "` is not a dictionary"
  | coercion text target => "cannot cast " ++ quoted text ++ " to " ++ target.name
  | sourceNotFound path => "config file " ++ path ++ " not found"
  | missingSource => "a configuration file is required, pass one explicitly or with -cfg"
  | unsupportedFormat fault => "unsupported configuration format: " ++ fault.message
  | invalidSource fault => "invalid configuration source: " ++ fault.message
  | fileAccess => "IO error"
  | jsonSyntax => "JSON error"
  | yamlSyntax => "YAML error"
  | xmlSyntax fault => "XML error" ++ fault.detail

end Error

end LayeredConfig

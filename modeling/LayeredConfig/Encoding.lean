import LayeredConfig.FileFormat
import LayeredConfig.Json.Reader
import LayeredConfig.Xml.Writer
import LayeredConfig.Yaml.Reader
import LayeredConfig.Yaml.Writer

/-!
# Documents in files

Every file format as a reader and a writer of documents.
-/

namespace LayeredConfig.FileFormat

def read : FileFormat → String → Except Error Document
  | json, text => Json.read text
  | yaml, text => Yaml.read text
  | xml, text => Xml.read text

def render : FileFormat → Document → String
  | json, d => Json.render d
  | yaml, d => Yaml.render d
  | xml, d => Xml.render d

end LayeredConfig.FileFormat

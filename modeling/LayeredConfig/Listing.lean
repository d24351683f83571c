import LayeredConfig.Placeholder
import LayeredConfig.Text.Quoted

/-!
# Listings

A globals table on one line, for diagnostics: every value with the kind it has, and texts in quotes.
-/

namespace LayeredConfig

/-- Floats in listings: positional from 10 ^ -4 to 10 ^ 16, otherwise with an exponent. -/
def listingLayout : FloatLayout := ⟨.away, some (-4), some 15, false⟩

def listed (parts : List String) : String := ", ".intercalate parts

mutual

def Value.listing : Value → String
  | .null => "Null"
  | .bool b => "Bool(" ++ (if b then "true" else "false") ++ ")"
  | .int i => "Int(" ++ toString i.toInt ++ ")"
  | .float x => "Float(" ++ listingLayout.render x ++ ")"
  | .str s => "Str(" ++ quoted s ++ ")"
  | .list items => "List([" ++ listed (itemListings items) ++ "])"
  | .node _ _ entries => "Node(\x7b" ++ listed (entryListings entries) ++ "\x7d)"

def itemListings : List Value → List String
  | [] => []
  | v :: rest => v.listing :: itemListings rest

def entryListings : Entries → List String
  | [] => []
  | (key, v) :: rest => (quoted key ++ ": " ++ v.listing) :: entryListings rest

end

def Globals.listing (globals : Globals) : String :=
  "\x7b" ++ listed (entryListings globals) ++ "\x7d"

end LayeredConfig

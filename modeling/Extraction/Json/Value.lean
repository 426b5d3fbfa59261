/-! JSON values as they stand in a document. Numbers keep their spelling, which decides how they may be
read; a string that no text can hold, because of an ill-formed octet or a lone surrogate, is kept as
`none`; an object keeps all its members in order, repeated names included. -/
namespace Extraction

inductive Json where
  | null
  | bool (value : Bool)
  | number (lexeme : String)
  | string (text : Option String)
  | array (items : List Json)
  | object (members : List (Option String × Json))
  deriving Inhabited

end Extraction

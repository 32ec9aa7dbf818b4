/-! # What can be wrong with a YAML text -/

namespace CodeIndex.Yaml

inductive Problem where
  /-- A character that no text may hold. -/
  | badCharacter
  /-- The text does not fall into tokens. -/
  | badToken
  /-- The tokens do not make up documents. -/
  | badStructure
  | severalDocuments
  | unknownAnchor
  /-- Collections are nested too deeply, or a collection holds itself. -/
  | tooDeep
  /-- Aliases repeat too much. -/
  | tooManyAliases
  | duplicateKey
  | badTag
  | hugeInteger
  /-- The document is fine but does not describe what is wanted. -/
  | mismatched
deriving DecidableEq, Repr

def Problem.message : Problem → String
  | .badCharacter => "control characters are not allowed"
  | .badToken => "found characters that no token begins with"
  | .badStructure => "did not find the expected structure"
  | .severalDocuments => "there is more than one document"
  | .unknownAnchor => "an alias names no anchor"
  | .tooDeep => "collections are nested too deeply"
  | .tooManyAliases => "aliases repeat too much"
  | .duplicateKey => "a mapping has a key twice"
  | .badTag => "a tag does not fit its value"
  | .hugeInteger => "an integer is too large"
  | .mismatched => "the document does not fit the schema"

end CodeIndex.Yaml

namespace LuaBundle.Yaml

-- The pieces that a document consists of. Block collections have a start and an end although the
-- text marks them by indentation alone.
inductive Token
  | version (major minor : Nat)
  | tagHandle (handle replacement : String)
  | documentStart
  | documentEnd
  | blockSequence
  | blockMapping
  | blockEnd
  | flowSequence
  | flowSequenceEnd
  | flowMapping
  | flowMappingEnd
  | blockEntry
  | flowEntry
  | key
  | value
  | alias (name : String)
  | anchor (name : String)
  | tag (handle suffix : String)
  | scalar (isPlain : Bool) (text : String)
  | streamEnd
deriving DecidableEq, Repr

-- Why a text is no document.
inductive Problem
  | controlCharacter
  | tabInIndentation
  | strayCharacter
  | colonInFlow
  | unterminatedScalar
  | documentMarkInScalar
  | badEscape
  | badBlockHeader
  | badAnchor
  | badTag
  | badDirective
  | misplacedEntry
  | misplacedKey
  | misplacedValue
  | missingColon
  | missingKey
  | missingEntry
  | missingSeparator
  | missingContent
  | missingDocumentStart
  | repeatedDirective
  | unsupportedVersion
  | unknownTagHandle
  | unknownAnchor
  | severalDocuments
deriving DecidableEq, Repr

def Problem.message : Problem → String
  | controlCharacter => "control characters are not allowed"
  | tabInIndentation => "found a tab character where an indentation space is expected"
  | strayCharacter => "found character that cannot start any token"
  | colonInFlow => "found unexpected ':'"
  | unterminatedScalar => "found unexpected end of stream"
  | documentMarkInScalar => "found unexpected document indicator"
  | badEscape => "found unknown escape character"
  | badBlockHeader => "did not find expected comment or line break"
  | badAnchor => "did not find expected alphabetic or numeric character"
  | badTag => "did not find expected tag URI"
  | badDirective => "found unknown directive name"
  | misplacedEntry => "block sequence entries are not allowed in this context"
  | misplacedKey => "mapping keys are not allowed in this context"
  | misplacedValue => "mapping values are not allowed in this context"
  | missingColon => "could not find expected ':'"
  | missingKey => "did not find expected key"
  | missingEntry => "did not find expected '-' indicator"
  | missingSeparator => "did not find expected ',' or the end of the collection"
  | missingContent => "did not find expected node content"
  | missingDocumentStart => "did not find expected <document start>"
  | repeatedDirective => "found duplicate directive"
  | unsupportedVersion => "found incompatible YAML document"
  | unknownTagHandle => "found undefined tag handle"
  | unknownAnchor => "unknown anchor"
  | severalDocuments => "deserializing from YAML containing more than one document is not supported"

end LuaBundle.Yaml

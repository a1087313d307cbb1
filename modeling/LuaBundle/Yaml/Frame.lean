import LuaBundle.Yaml.Node
import LuaBundle.Yaml.Token

namespace LuaBundle.Yaml

-- Where a mapping stands: before an entry, after a key indicator, after a key, after the value
-- indicator of a key, or after an entry that a separator must follow.
inductive Place
  | entry
  | key
  | value (k : Node)
  | content (k : Node)
  | separator

-- A part of a document that is not complete. Items and entries are last first.
inductive Frame
  | document (root : Option Node)
  -- `isOpen` tells whether a `-` waits for its item
  | blockSequence (items : List Node) (isOpen : Bool)
  -- a block sequence that is no more indented than the mapping around and ends without a mark
  | hangingSequence (items : List Node) (isOpen : Bool)
  | blockMapping (entries : List (Node × Node)) (place : Place)
  -- `isOpen` tells whether an item may stand here
  | flowSequence (items : List Node) (isOpen : Bool)
  | flowMapping (entries : List (Node × Node)) (place : Place)
  -- one entry of a mapping as an item of a flow sequence
  | pair (place : Place)
  | fullPair (k v : Node)

-- What a token that begins no node does to the part that it meets.
inductive Reaction
  -- belongs to it
  | stay (f : Frame)
  -- belongs to it and begins a part inside it
  | enter (inner : Frame)
  -- ends it
  | close (n : Node)
  -- shows that it has ended, and belongs to the part around it
  | leave (n : Node)
  | fail (problem : Problem)

namespace Frame

-- Whether a node may stand here.
def awaits : Frame → Bool
  | document root => root.isNone
  | blockSequence _ isOpen | hangingSequence _ isOpen | flowSequence _ isOpen => isOpen
  | blockMapping _ .key | blockMapping _ (.content _) => true
  | flowMapping _ .entry | flowMapping _ .key | flowMapping _ (.content _) => true
  | pair .key | pair (.content _) => true
  | _ => false

-- The part with one more node. A node in a flow mapping that no indicator announced is a key.
def fill (n : Node) : Frame → Frame
  | document _ => document (some n)
  | blockSequence items _ => blockSequence (n :: items) false
  | hangingSequence items _ => hangingSequence (n :: items) false
  | blockMapping entries (.content k) => blockMapping ((k, n) :: entries) .entry
  | blockMapping entries _ => blockMapping entries (.value n)
  | flowSequence items _ => flowSequence (n :: items) false
  | flowMapping entries (.content k) => flowMapping ((k, n) :: entries) .separator
  | flowMapping entries .key => flowMapping entries (.value n)
  | flowMapping entries _ => flowMapping ((n, .absent) :: entries) .separator
  | pair (.content k) => fullPair k n
  | pair _ => pair (.value n)
  | fullPair k v => fullPair k v

def sequenceOf (items : List Node) : Node :=
  .sequence items.reverse

def mappingOf (entries : List (Node × Node)) : Node :=
  .mapping entries.reverse

-- Tokens that show that a key or value is left out.
def endsEntry : Token → Bool
  | .key | .value | .blockEnd => true
  | _ => false

-- A block mapping before an entry.
def atEntry (entries : List (Node × Node)) : Token → Reaction
  | .key => .stay (blockMapping entries .key)
  | .blockEnd => .close (mappingOf entries)
  | _ => .fail .missingKey

-- A block mapping after a key.
def atValue (entries : List (Node × Node)) (k : Node) : Token → Reaction
  | .value => .stay (blockMapping entries (.content k))
  | t => atEntry ((k, .absent) :: entries) t

-- A flow mapping after an entry.
def atSeparator (entries : List (Node × Node)) : Token → Reaction
  | .flowEntry => .stay (flowMapping entries .entry)
  | .flowMappingEnd => .close (mappingOf entries)
  | _ => .fail .missingSeparator

-- A flow mapping after a key.
def atFlowValue (entries : List (Node × Node)) (k : Node) : Token → Reaction
  | .value => .stay (flowMapping entries (.content k))
  | t => atSeparator ((k, .absent) :: entries) t

def react (t : Token) : Frame → Reaction
  | document root => .fail (if root.isNone then .missingContent else .missingDocumentStart)
  | blockSequence items isOpen =>
    let items := if isOpen then .absent :: items else items
    match t with
    | .blockEntry => .stay (blockSequence items true)
    | .blockEnd => .close (sequenceOf items)
    | _ => .fail (if isOpen then .missingContent else .missingEntry)
  | hangingSequence items false =>
    if t = .blockEntry then .stay (hangingSequence items true) else .leave (sequenceOf items)
  | hangingSequence items true =>
    if t = .blockEntry then .stay (hangingSequence (.absent :: items) true)
    else if endsEntry t then .leave (sequenceOf (.absent :: items))
    else .fail .missingContent
  | blockMapping entries place =>
    match place with
    | .entry | .separator => atEntry entries t
    | .key => if endsEntry t then atValue entries .absent t else .fail .missingContent
    | .value k => atValue entries k t
    | .content k =>
      if endsEntry t then atEntry ((k, .absent) :: entries) t else .fail .missingContent
  | flowSequence items true =>
    match t with
    | .flowSequenceEnd => .close (sequenceOf items)
    | .key => .enter (pair .key)
    | _ => .fail .missingContent
  | flowSequence items false =>
    match t with
    | .flowSequenceEnd => .close (sequenceOf items)
    | .flowEntry => .stay (flowSequence items true)
    | _ => .fail .missingSeparator
  | flowMapping entries place =>
    match place, t with
    | .entry, .key => .stay (flowMapping entries .key)
    | .entry, .flowMappingEnd => .close (mappingOf entries)
    | .entry, _ => .fail .missingContent
    | .key, .value | .key, .flowEntry | .key, .flowMappingEnd => atFlowValue entries .absent t
    | .key, _ => .fail .missingContent
    | .value k, _ => atFlowValue entries k t
    | .content k, .flowEntry | .content k, .flowMappingEnd =>
      atSeparator ((k, .absent) :: entries) t
    | .content _, _ => .fail .missingContent
    | .separator, _ => atSeparator entries t
  | pair place =>
    match place, t with
    | .value k, .value => .stay (pair (.content k))
    | .value k, _ => .leave (.mapping [(k, .absent)])
    | .content k, .flowEntry | .content k, .flowSequenceEnd => .leave (.mapping [(k, .absent)])
    | .content _, _ => .fail .missingContent
    -- a key indicator without a key takes the token after it along
    | _, .value | _, .flowEntry | _, .flowSequenceEnd => .stay (pair (.value .absent))
    | _, _ => .fail .missingContent
  | fullPair k v => .leave (.mapping [(k, v)])

-- The part that a token begins where a node may stand.
def begin? (f : Frame) : Token → Option Frame
  | .blockSequence => some (blockSequence [] false)
  | .blockMapping => some (blockMapping [] .entry)
  | .flowSequence => some (flowSequence [] true)
  | .flowMapping => some (flowMapping [] .entry)
  | .blockEntry =>
    match f with
    | blockMapping .. => some (hangingSequence [] true)
    | _ => none
  | _ => none

end Frame
end LuaBundle.Yaml

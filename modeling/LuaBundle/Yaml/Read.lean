import LuaBundle.Yaml.Frame
import LuaBundle.Yaml.Tokens

namespace LuaBundle.Yaml

-- A part that is being read, and the number of its anchor.
structure Open where
  frame : Frame
  anchor : Option Nat

-- An anchor and a tag that wait for their node.
structure Properties where
  anchor : Option Nat
  tag : Option String
deriving DecidableEq

namespace Properties

def none : Properties :=
  ⟨Option.none, Option.none⟩

def isNone (p : Properties) : Bool :=
  p.anchor.isNone && p.tag.isNone

end Properties

-- Which part of a document comes next. Directives, if there are any, must be followed by the mark
-- that starts the document.
inductive Phase
  | before (hasDirectives : Bool)
  | inside (isExplicit : Bool)
  | after
  | ended
deriving DecidableEq

-- A document that is being read. `parts` are innermost first, and `names` are the anchors seen,
-- latest first.
structure Assembly where
  phase : Phase
  hasVersion : Bool
  handles : List (String × String)
  parts : List Open
  properties : Properties
  names : List (String × Nat)
  anchored : List (Nat × Node)

namespace Assembly

def initial : Assembly :=
  ⟨.before false, false, [], [⟨.document none, none⟩], .none, [], []⟩

def root? (s : Assembly) : Option Node :=
  match s.parts with
  | [⟨.document root, _⟩] => root
  | _ => none

def mark (s : Assembly) (anchor : Option Nat) (n : Node) : Assembly :=
  match anchor with
  | some a => { s with anchored := (a, n) :: s.anchored }
  | none => s

-- An anchor in front of a node. Numbers count different names: a name used again gets a number as a
-- new one would, and a number belongs to the node that got it last.
def name (s : Assembly) (name : String) : Assembly :=
  let a := s.names.length
  { s with
    names := (name, a) :: s.names.filter (·.1 ≠ name)
    parts := s.parts.map fun o => if o.anchor = some a then { o with anchor := none } else o
    properties := { s.properties with anchor := some a } }

-- A complete node takes its place.
def put (s : Assembly) (n : Node) : Assembly :=
  match s.parts with
  | o :: outer => { s with parts := { o with frame := o.frame.fill n } :: outer }
  | [] => s

-- A scalar or alias with the properties in front of it.
def putLeaf (s : Assembly) (n : Node) : Assembly :=
  { (s.mark s.properties.anchor n) with properties := .none }.put n

def begin (s : Assembly) (f : Frame) : Assembly :=
  { s with parts := ⟨f, s.properties.anchor⟩ :: s.parts, properties := .none }

-- A token that begins no node meets the innermost part, and the parts around as those inside turn
-- out to be complete.
def meet (t : Token) (s : Assembly) : List Open → Option Node → Except Problem Assembly
  | [], _ => .error .missingDocumentStart
  | o :: outer, inner =>
    let f := inner.elim o.frame o.frame.fill
    match f.react t with
    | .stay f => .ok { s with parts := { o with frame := f } :: outer }
    | .enter g => .ok { s with parts := ⟨g, none⟩ :: { o with frame := f } :: outer }
    | .close n => .ok ({ (s.mark o.anchor n) with parts := outer }.put n)
    | .leave n => meet t (s.mark o.anchor n) outer (some n)
    | .fail p => .error p

def awaits (s : Assembly) : Bool :=
  s.parts.head?.any (·.frame.awaits)

-- The address that a tag stands for.
def address? (s : Assembly) (handle suffix : String) : Except Problem String :=
  if handle = "" then .ok suffix
  else
    match s.handles.lookup handle with
    | some replacement => .ok (replacement ++ suffix)
    | none =>
      if handle = "!" then .ok ("!" ++ suffix)
      else if handle = "!!" then .ok ("tag:yaml.org,2002:" ++ suffix)
      else .error .unknownTagHandle

-- A token inside a document. Properties that no node follows belong to one that is left out.
def feedInside (s : Assembly) (t : Token) : Except Problem Assembly := do
  let leftOut := s.putLeaf (.scalar true s.properties.tag "")
  match t with
  | .anchor name =>
    if s.awaits && s.properties.anchor.isNone then
      return s.name name
    else leftOut.meet t leftOut.parts none
  | .tag handle suffix =>
    if s.awaits && s.properties.tag.isNone then
      let address ← s.address? handle suffix
      return { s with properties := { s.properties with tag := some address } }
    else leftOut.meet t leftOut.parts none
  | .alias name =>
    if s.awaits && s.properties.isNone then
      match s.names.lookup name with
      | some a => return s.put (.alias a)
      | none => throw .unknownAnchor
    else s.meet t s.parts none
  | .scalar isPlain text =>
    if s.awaits then return s.putLeaf (.scalar isPlain s.properties.tag text)
    else s.meet t s.parts none
  | _ =>
    match s.parts.head?.bind fun o => if o.frame.awaits then o.frame.begin? t else none with
    | some f => return s.begin f
    | none =>
      if s.properties.isNone then s.meet t s.parts none else leftOut.meet t leftOut.parts none

-- Tokens that stand between documents.
def isOutside : Token → Bool
  | .version .. | .tagHandle .. | .documentStart | .documentEnd | .streamEnd => true
  | _ => false

-- A token after a complete document. One text holds one document only.
def feedAfter (s : Assembly) (t : Token) : Except Problem Assembly :=
  match t with
  | .documentEnd => .ok { s with phase := .after }
  | .streamEnd => .ok { s with phase := .ended }
  | .version .. | .tagHandle .. | .documentStart => .error .severalDocuments
  | _ => .error .missingDocumentStart

def feedBefore (s : Assembly) (hasDirectives : Bool) (t : Token) : Except Problem Assembly :=
  match t with
  | .version major minor =>
    if s.hasVersion then .error .repeatedDirective
    else if major ≠ 1 || (minor ≠ 1 && minor ≠ 2) then .error .unsupportedVersion
    else .ok { s with phase := .before true, hasVersion := true }
  | .tagHandle handle replacement =>
    if (s.handles.lookup handle).isSome then .error .repeatedDirective
    else .ok { s with phase := .before true, handles := (handle, replacement) :: s.handles }
  | .documentStart => .ok { s with phase := .inside true }
  | .streamEnd => if hasDirectives then .error .missingDocumentStart else .ok { s with phase := .ended }
  | _ =>
    if hasDirectives then .error .missingDocumentStart
    else { s with phase := .inside false }.feedInside t

def feed (s : Assembly) (t : Token) : Except Problem Assembly :=
  match s.phase with
  | .before hasDirectives => s.feedBefore hasDirectives t
  | .inside isExplicit =>
    if isOutside t then
      let isBare := isExplicit && s.awaits && s.parts.length = 1 && s.properties.isNone
      let s :=
        if isBare then s.put .absent
        else if s.properties.isNone then s
        else s.putLeaf (.scalar true s.properties.tag "")
      if s.root?.isSome then s.feedAfter t else s.meet t s.parts none
    else s.feedInside t
  | .after => s.feedAfter t
  | .ended => .error .severalDocuments

end Assembly

-- The document that a text holds.
def read (text : String) : Except Problem Document := do
  let s ← (← tokens text).foldlM Assembly.feed Assembly.initial
  return ⟨s.root?, s.anchored⟩

end LuaBundle.Yaml

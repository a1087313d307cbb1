import LuaBundle.Text.Utf8
import LuaBundle.Yaml.BlockScalar
import LuaBundle.Yaml.QuotedScalar

namespace LuaBundle.Yaml

-- A place in a text: characters before it, lines before it, and characters before it in its line.
structure Mark where
  index : Nat
  line : Nat
  column : Nat
deriving DecidableEq, Repr

namespace Mark

def start : Mark :=
  ⟨0, 0, 0⟩

-- The place after some more text.
def advance (m : Mark) : List Char → Mark
  | [] => m
  | '\r' :: '\n' :: r => advance ⟨m.index + 2, m.line + 1, 0⟩ r
  | c :: r =>
    if isBreak c then advance ⟨m.index + 1, m.line + 1, 0⟩ r
    else advance ⟨m.index + 1, m.line, m.column + 1⟩ r

end Mark

-- Something that may turn out to be a mapping key: where it starts, the number of tokens before
-- it, and whether nothing else can stand there.
structure Candidate where
  mark : Mark
  position : Nat
  isRequired : Bool
deriving DecidableEq, Repr

-- How far a text has been read. `tokens` are last first, `indents` the columns of the open block
-- collections, innermost first, and `candidates` holds one entry for each open flow collection
-- and one for the block around them, innermost first.
structure Reader where
  mark : Mark
  tokens : List Token
  indents : List Nat
  flowLevel : Nat
  candidates : List (Option Candidate)
  -- a mapping key may start here
  keyAllowed : Bool

namespace Reader

def initial : Reader :=
  ⟨.start, [], [], 0, [none], true⟩

def emit (s : Reader) (t : Token) : Reader :=
  { s with tokens := t :: s.tokens }

def inFlow (s : Reader) : Bool :=
  0 < s.flowLevel

-- The indentation that text of the innermost block collection has at least.
def textIndent (s : Reader) : Nat :=
  (s.indents.head?.map (· + 1)).getD 0

-- A token at an earlier place, given by the number of tokens before it.
def emitAt (s : Reader) (position : Nat) (t : Token) : Reader :=
  let later := s.tokens.length - position
  { s with tokens := s.tokens.take later ++ t :: s.tokens.drop later }

-- Block collections end where a line starts to the left of them.
def closeBlocks (s : Reader) (column : Nat) : Reader :=
  if s.inFlow then s else go s.tokens s.indents
where
  go (tokens : List Token) : List Nat → Reader
    | [] => { s with tokens := tokens, indents := [] }
    | i :: outer =>
      if column < i then go (.blockEnd :: tokens) outer
      else { s with tokens := tokens, indents := i :: outer }

def closeAllBlocks (s : Reader) : Reader :=
  if s.inFlow then s
  else { s with tokens := s.indents.map (fun _ => .blockEnd) ++ s.tokens, indents := [] }

-- A block collection starts where an entry stands to the right of the collection around.
def openBlock (s : Reader) (column position : Nat) (t : Token) : Reader :=
  if s.inFlow then s
  else if s.indents.head?.all (· < column) then
    { s.emitAt position t with indents := column :: s.indents }
  else s

-- A key is on one line and no longer than this.
def maxKeyLength : Nat :=
  1024

-- Give up what can be no key any more.
def dropStale (s : Reader) : Except Problem Reader :=
  let isStale (c : Candidate) : Bool :=
    c.mark.line < s.mark.line || c.mark.index + maxKeyLength < s.mark.index
  if s.candidates.any fun c => c.any fun c => c.isRequired && isStale c then .error .missingColon
  else .ok { s with candidates := s.candidates.map (·.filter (!isStale ·)) }

-- What comes next ends the chance of the innermost candidate.
def dropCandidate (s : Reader) : Except Problem Reader :=
  match s.candidates with
  | some c :: outer =>
    if c.isRequired then .error .missingColon else .ok { s with candidates := none :: outer }
  | _ => .ok s

-- A key may start with the next token.
def addCandidate (s : Reader) : Except Problem Reader := do
  if !s.keyAllowed then return s
  let s ← s.dropCandidate
  let isRequired := !s.inFlow && s.indents.head? = some s.mark.column
  return { s with candidates := some ⟨s.mark, s.tokens.length, isRequired⟩ :: s.candidates.drop 1 }

-- Skip to the next token: blanks, comments, line breaks and, at the start of a line, a byte order
-- mark. Tabs count as blanks only where no indentation can stand. What is returned tells whether a
-- key may start then, too.
def skip (inFlow keyAllowed atStart inComment : Bool) : List Char → List Char × Bool
  | [] => ([], keyAllowed)
  | c :: r =>
    if isBreak c then skip inFlow (keyAllowed || !inFlow) true false r
    else if inComment then skip inFlow keyAllowed false true r
    else if c = ' ' || (c = '\t' && (inFlow || !keyAllowed)) || (c = byteOrderMark && atStart) then
      skip inFlow keyAllowed false false r
    else if c = '#' then skip inFlow keyAllowed false true r
    else (c :: r, keyAllowed)

-- Characters of the address that a tag is; inside angle brackets there are a few more.
def isTagCharacter (isVerbatim : Bool) (c : Char) : Bool :=
  isWord c || ";/?:@&=+$.!~*'()%".toList.contains c || (isVerbatim && ",[]".toList.contains c)

-- Directives, and the number of characters that they take.
def directive? (s : List Char) : Except Problem (Token × Nat) := do
  let name := s.takeWhile isWord
  let afterName := s.drop name.length
  if name.isEmpty || !atGap afterName then throw .badDirective
  let args := afterName.dropWhile isBlank
  let (token, afterArgs) ← match String.ofList name with
    | "YAML" => version? args
    | "TAG" => tagHandle? args
    | _ => throw .badDirective
  let after := afterArgs.dropWhile isBlank
  let line := if after.head? = some '#' then after.dropWhile (!isBreak ·) else after
  if line.head?.all isBreak then return (token, s.length - line.length)
  else throw .badDirective
where
  number? (s : List Char) : Except Problem (Nat × List Char) :=
    let digits := s.takeWhile Char.isDigit
    if digits.isEmpty || 9 < digits.length then .error .badDirective
    else .ok (Lua.digitsValue 10 digits, s.drop digits.length)
  version? (s : List Char) : Except Problem (Token × List Char) := do
    let (major, r) ← number? s
    match r with
    | '.' :: r =>
      let (minor, r) ← number? r
      return (.version major minor, r)
    | _ => throw .badDirective
  tagHandle? (s : List Char) : Except Problem (Token × List Char) := do
    let word := s.takeWhile (!isGap ·)
    let r := (s.drop word.length).dropWhile isBlank
    let target := r.takeWhile (!isGap ·)
    let inner := (word.drop 1).takeWhile isWord
    let isHandle := word = ['!'] || word = '!' :: (inner ++ ['!'])
    if isHandle && !target.isEmpty && target.all (isTagCharacter true) then
      return (.tagHandle (String.ofList word) (String.ofList target), r.drop target.length)
    else throw .badDirective

-- The name of an anchor or alias.
def anchorName? (s : List Char) : Except Problem (List Char) :=
  let name := s.takeWhile isWord
  let ends (c : Char) : Bool := isGap c || "?:,]\x7d%@`".toList.contains c
  if name.isEmpty || !(s.drop name.length).head?.all ends then .error .badAnchor else .ok name

-- The text of an address, in which bytes may be written as `%` and two hexadecimal digits.
def tagText? (s : List Char) : Except Problem String :=
  go [] s
where
  go (done : List UInt8) : List Char → Except Problem String
    | [] => .ok (String.ofList (Text.decodeLossy done.reverse))
    | '%' :: a :: b :: r =>
      if Lua.isHexDigit a && Lua.isHexDigit b then
        go (UInt8.ofNat (Lua.digitsValue 16 [a, b]) :: done) r
      else .error .badTag
    | c :: r =>
      if c = '%' then .error .badTag
      else go ((String.utf8EncodeChar c).reverse ++ done) r

-- A tag whose `!` has just been taken, and the number of characters that it takes.
def tag? (inFlow : Bool) (s : List Char) : Except Problem (Token × Nat) := do
  let (token, n) ← match s with
    | '<' :: r =>
      let word := r.takeWhile (isTagCharacter true)
      if word.isEmpty || (r.drop word.length).head? ≠ some '>' then throw .badTag
      pure (.tag "" (← tagText? word), word.length + 2)
    | _ =>
      let handle := s.takeWhile isWord
      match s.drop handle.length with
      | '!' :: r =>
        let word := r.takeWhile (isTagCharacter false)
        if word.isEmpty then throw .badTag
        pure (.tag (String.ofList ('!' :: (handle ++ ['!']))) (← tagText? word),
          handle.length + 1 + word.length)
      | _ =>
        let word := s.takeWhile (isTagCharacter false)
        if word.isEmpty then pure (.tag "" "!", 0)
        else pure (.tag "!" (← tagText? word), word.length)
  let after := s.drop n
  if atGap after || (inFlow && after.head? = some ',') then return (token, n) else throw .badTag

-- Characters that no plain scalar starts with.
def isIndicator (c : Char) : Bool :=
  "-?:,[]\x7b\x7d#&*!|>'\"%@`".toList.contains c

def startsPlain (inFlow : Bool) (c : Char) (r : List Char) : Bool :=
  !(isGap c || isIndicator c) || (c = '-' && !r.head?.any isBlank) ||
    (!inFlow && (c = '?' || c = ':') && !atGap r)

-- A scalar of one line may be a key.
def scalar (s : Reader) (isPlain : Bool) (r : List Char) (found : Except Problem Scanned) :
    Except Problem (Reader × Nat) := do
  let s ← s.addCandidate
  let f ← found
  let s := { s with keyAllowed := f.isBroken }
  return (s.emit (.scalar isPlain (String.ofList f.text)), r.length - f.rest.length)

-- A mark that separates documents.
def documentMark (s : Reader) (t : Token) : Except Problem Reader := do
  let s ← s.closeAllBlocks.dropCandidate
  return { s with keyAllowed := false }.emit t

-- A `-`, `?` or `:` of a block collection.
def openEntry (s : Reader) (collection : Token) (problem : Problem) : Except Problem Reader :=
  if s.inFlow then .ok s
  else if s.keyAllowed then .ok (s.openBlock s.mark.column s.tokens.length collection)
  else .error problem

-- The value indicator makes a key of the innermost candidate, if there is one.
def value (s : Reader) : Except Problem Reader := do
  match s.candidates with
  | some c :: outer =>
    let s := { s with candidates := none :: outer, keyAllowed := false }
    let s := (s.emitAt c.position .key).openBlock c.mark.column c.position .blockMapping
    return s.emit .value
  | _ =>
    let s ← s.openEntry .blockMapping .misplacedValue
    return { s with keyAllowed := !s.inFlow }.emit .value

def flowStart (s : Reader) (t : Token) : Except Problem Reader := do
  let s ← s.addCandidate
  let s := { s with candidates := none :: s.candidates, flowLevel := s.flowLevel + 1 }
  return { s with keyAllowed := true }.emit t

def flowEnd (s : Reader) (t : Token) : Except Problem Reader := do
  let s ← s.dropCandidate
  let s :=
    if s.inFlow then { s with candidates := s.candidates.drop 1, flowLevel := s.flowLevel - 1 } else s
  return { s with keyAllowed := false }.emit t

-- The token that starts with the character `c`, and how many characters of `r` belong to it.
def take (s : Reader) (c : Char) (r : List Char) : Except Problem (Reader × Nat) := do
  if s.mark.column = 0 && c = '%' then
    let s ← s.closeAllBlocks.dropCandidate
    let (t, n) ← directive? r
    return ({ s with keyAllowed := false }.emit t, n)
  else if s.mark.column = 0 && atDocumentMark (c :: r) then
    return (← s.documentMark (if c = '-' then .documentStart else .documentEnd), 2)
  else if c = '[' then return (← s.flowStart .flowSequence, 0)
  else if c = '\x7b' then return (← s.flowStart .flowMapping, 0)
  else if c = ']' then return (← s.flowEnd .flowSequenceEnd, 0)
  else if c = '\x7d' then return (← s.flowEnd .flowMappingEnd, 0)
  else if c = ',' then
    let s ← s.dropCandidate
    return ({ s with keyAllowed := true }.emit .flowEntry, 0)
  else if c = '-' && atGap r then
    let s ← (← s.openEntry .blockSequence .misplacedEntry).dropCandidate
    return ({ s with keyAllowed := true }.emit .blockEntry, 0)
  else if c = '?' && (s.inFlow || atGap r) then
    let s ← (← s.openEntry .blockMapping .misplacedKey).dropCandidate
    return ({ s with keyAllowed := !s.inFlow }.emit .key, 0)
  else if c = ':' && (s.inFlow || atGap r) then return (← s.value, 0)
  else if c = '*' || c = '&' then
    let s ← s.addCandidate
    let name ← anchorName? r
    let t := if c = '*' then Token.alias (String.ofList name) else .anchor (String.ofList name)
    return ({ s with keyAllowed := false }.emit t, name.length)
  else if c = '!' then
    let s ← s.addCandidate
    let (t, n) ← tag? s.inFlow r
    return ({ s with keyAllowed := false }.emit t, n)
  else if (c = '|' || c = '>') && !s.inFlow then
    let s ← s.dropCandidate
    let f ← readBlock (c = '|') s.indents.head? r
    return ({ s with keyAllowed := true }.emit (.scalar false (String.ofList f.text)),
      r.length - f.rest.length)
  else if c = '\'' || c = '"' then s.scalar false r (readQuoted (c = '\'') r)
  else if startsPlain s.inFlow c r then
    s.scalar true r (readPlain s.inFlow s.textIndent (c :: r))
  else throw .strayCharacter

theorem length_skip_le (inFlow keyAllowed atStart inComment : Bool) (s : List Char) :
    (skip inFlow keyAllowed atStart inComment s).1.length ≤ s.length := by
  fun_induction skip inFlow keyAllowed atStart inComment s
  all_goals first
    | exact Nat.le_refl _
    | exact Nat.le_succ_of_le ‹_›

-- Go to the next token, from a place between two of them.
def advance (s : Reader) (text rest : List Char) (keyAllowed : Bool) : Except Problem Reader := do
  let mark := s.mark.advance (text.take (text.length - rest.length))
  let s ← { s with mark := mark, keyAllowed := keyAllowed }.dropStale
  return s.closeBlocks mark.column

-- The tokens read so far and those that a text still has.
def readAll (s : Reader) (text : List Char) : Except Problem (List Token) :=
  let skipped := skip s.inFlow s.keyAllowed (s.mark.column = 0) false text
  match _h : skipped.1 with
  | [] => do
    let s ← (← s.advance text [] skipped.2).closeAllBlocks.dropCandidate
    return (s.emit .streamEnd).tokens.reverse
  | c :: r => do
    let here ← s.advance text (c :: r) skipped.2
    let (next, n) ← here.take c r
    { next with mark := here.mark.advance (c :: r.take n) }.readAll (r.drop n)
termination_by text.length
decreasing_by
  have := length_skip_le s.inFlow s.keyAllowed (s.mark.column = 0) false text
  simp only [skipped] at _h
  rw [_h] at this
  simp only [List.length_cons, List.length_drop] at this ⊢
  omega

end Reader

-- The tokens of a document.
def tokens (text : String) : Except Problem (List Token) :=
  let s := text.toList
  if s.all isAllowed then Reader.initial.readAll s else .error .controlCharacter

end LuaBundle.Yaml

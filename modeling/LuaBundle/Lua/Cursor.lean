import LuaBundle.Lua.Lex

namespace LuaBundle.Lua.Cursor

-- The lexer that goes through the bytes of a source by their offsets. What takes a text out of the
-- source is `none` where it would have to cut a character.

-- A byte as the character of its code, which is what it encodes in ASCII.
def char (b : UInt8) : Char :=
  Char.ofNat b.toNat

-- The number of bytes at the front that are in a class of characters.
def run (p : Char → Bool) (bytes : List UInt8) : Nat :=
  (bytes.takeWhile fun b => p (char b)).length

def startsWith (text : List Char) (bytes : List UInt8) : Bool :=
  (Text.encode text).isPrefixOf bytes

-- Whether a character starts at an offset, or the source ends there.
def isBoundary (source : List UInt8) (n : Nat) : Bool :=
  n = source.length || source[n]?.any fun b => b < 0x80 || 0xC0 ≤ b

-- The text between two offsets.
def slice? (source : List UInt8) (start stop : Nat) : Option String :=
  if start ≤ stop ∧ isBoundary source start ∧ isBoundary source stop then
    some (String.ofList (Text.decodeLossy ((source.take stop).drop start)))
  else none

-- The level of the long bracket that opens here.
def longLevel? (bytes : List UInt8) : Option Nat :=
  let level := run (· = '=') (bytes.drop 1)
  if startsWith ['['] bytes ∧ startsWith ['['] (bytes.drop (1 + level)) then some level else none

def leadingBreak (bytes : List UInt8) : Nat :=
  if startsWith ['\r', '\n'] bytes ∨ startsWith ['\n', '\r'] bytes then 2
  else if startsWith ['\r'] bytes ∨ startsWith ['\n'] bytes then 1
  else 0

-- The number of bytes in front of the first closer.
def closer? (level : Nat) (bytes : List UInt8) : Option Nat :=
  if startsWith (longCloser level) bytes then some 0
  else match bytes with
    | [] => none
    | _ :: bytes => (closer? level bytes).map (· + 1)

-- The inside of a long bracket, with the number of bytes that it takes together with its closer.
def longBody (level : Nat) (bytes : List UInt8) : List UInt8 × Nat :=
  let skipped := leadingBreak bytes
  let inside := bytes.drop skipped
  match closer? level inside with
  | some n => (inside.take n, skipped + n + (level + 2))
  | none => (inside, bytes.length)

-- The length of a comment whose `--` has just been taken.
def comment (bytes : List UInt8) : Nat :=
  match longLevel? bytes with
  | some level => level + 2 + (longBody level (bytes.drop (level + 2))).2
  | none => run (· ≠ '\n') bytes

-- The length of the white space and comments in front of a token.
def trivia (bytes : List UInt8) : Nat :=
  let blank := run isSpace bytes
  let rest := bytes.drop blank
  if h : startsWith ['-', '-'] rest then
    let length := comment (rest.drop 2)
    blank + 2 + length + trivia (rest.drop (2 + length))
  else blank
termination_by bytes.length
decreasing_by
  have : rest ≠ [] := by
    intro hnil
    simp [hnil, startsWith, Text.encode] at h
  have := List.length_pos_iff.mpr this
  simp only [rest, List.length_drop] at this ⊢
  omega

-- What an escape denotes, with the number of bytes behind its backslash.
def escape (bytes : List UInt8) : List UInt8 × Nat :=
  match bytes with
  | [] => ([], 0)
  | b :: r =>
    match letterEscape? (char b) with
    | some value => ([value], 1)
    | none =>
      if isLineBreak (char b) then
        ([0x0A], 1 + (breakPartner (char b) ((r.take 1).map char)).length)
      else if char b = 'z' then ([], 1 + run isSpace r)
      else if char b = 'x' then
        let n := run isHexDigit (r.take 2)
        ([UInt8.ofNat (digitsValue 16 ((r.take n).map char))], 1 + n)
      else if (char b).isDigit then
        let n := run Char.isDigit (r.take 2)
        ([UInt8.ofNat (min (digitsValue 10 ((b :: r.take n).map char)) 255)], 1 + n)
      else if char b = 'u' ∧ startsWith ['\x7b'] r then
        let n := run isHexDigit (r.drop 1)
        let close := if startsWith ['\x7d'] (r.drop (1 + n)) then 1 else 0
        (String.utf8EncodeChar
          (scalarOrReplacement (digitsValue 16 (((r.drop 1).take n).map char))), 2 + n + close)
      else ([b], 1)

-- What a short literal denotes whose opening quote has just been taken, with its length from there.
def shortBody (quote : UInt8) (bytes : List UInt8) : List UInt8 × Nat :=
  match bytes with
  | [] => ([], 0)
  | b :: r =>
    if b = quote then ([], 1)
    else if isLineBreak (char b) then ([], 0)
    else if char b = '\\' then
      let piece := escape r
      let more := shortBody quote (r.drop piece.2)
      (piece.1 ++ more.1, 1 + piece.2 + more.2)
    else
      let more := shortBody quote r
      (b :: more.1, 1 + more.2)
termination_by bytes.length

-- The length of the rest of a numeral after its byte `last`.
def numeralTail (last : UInt8) : List UInt8 → Nat
  | [] => 0
  | b :: r =>
    if isNumeralCharacter (char b) || (isSign (char b) && isExponentMark (char last)) then
      1 + numeralTail b r
    else 0

-- The length of a symbol.
def symbol (bytes : List UInt8) : Nat :=
  if startsWith ['.', '.', '.'] bytes then 3
  else if symbolPairs.any (startsWith · bytes) then 2
  else 1

-- What the token says that begins with the byte at `start`, with the number of bytes behind that.
def token? (source : List UInt8) (start : Nat) (first : UInt8) (r : List UInt8) :
    Option (Kind × Nat) :=
  if char first = '"' ∨ char first = '\'' then
    let body := shortBody first r
    some (.str (String.ofList (Text.decodeLossy body.1)), body.2)
  else match longLevel? (first :: r) with
    | some level =>
      let body := longBody level (r.drop (level + 1))
      some (.str (String.ofList (Text.decodeLossy body.1)), level + 1 + body.2)
    | none =>
      if (char first).isDigit ∨ char first = '.' ∧ (r.head?.any fun b => (char b).isDigit) then
        some (.number, numeralTail first r)
      else if isNameStart (char first) then
        let length := run isNameCharacter r
        (slice? source start (start + 1 + length)).map fun text => (.name text, length)
      else
        let length := symbol (first :: r) - 1
        (slice? source start (start + 1 + length)).map fun text => (.symbol text, length)

-- The tokens from an offset on.
def lexFrom? (source : List UInt8) (n : Nat) : Option (List Token) :=
  let start := n + trivia (source.drop n)
  match _h : source.drop start with
  | [] => some []
  | first :: r => do
    let (kind, length) ← token? source start first r
    let stop := start + 1 + length
    let more ← lexFrom? source stop
    return ⟨kind, start, stop⟩ :: more
termination_by source.length - n
decreasing_by
  have := congrArg List.length _h
  simp only [List.length_drop, List.length_cons, start] at this ⊢
  omega

-- The length of what may stand in front of the program.
def preamble (source : List UInt8) : Nat :=
  let mark := if startsWith ['\uFEFF'] source then 3 else 0
  let line := source.drop mark
  mark + if startsWith ['#'] line then run (· ≠ '\n') line else 0

def lex? (source : List UInt8) : Option (List Token) :=
  lexFrom? source (preamble source)

end LuaBundle.Lua.Cursor

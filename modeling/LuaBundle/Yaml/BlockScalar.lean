import LuaBundle.Yaml.PlainScalar

namespace LuaBundle.Yaml

-- Which line breaks at the end of a block scalar are kept.
inductive Chomping
  | strip
  | clip
  | keep
deriving DecidableEq, Repr

namespace Block

-- The marks after `|` or `>`: how to treat the end, and by how much the text is indented.
structure Header where
  chomping : Chomping
  indent : Option Nat

def chomping? (c : Char) : Option Chomping :=
  if c = '-' then some .strip else if c = '+' then some .keep else none

def indent? (c : Char) : Option Nat :=
  if c.isDigit && c ≠ '0' then some (c.toNat - '0'.toNat) else none

-- The two marks may stand in either order, and the number of characters that they take.
def marks (s : List Char) : Header × Nat :=
  match s with
  | a :: r =>
    match chomping? a, indent? a with
    | some k, _ =>
      match r.head?.bind indent? with
      | some n => (⟨k, some n⟩, 2)
      | none => (⟨k, none⟩, 1)
    | none, some n =>
      match r.head?.bind chomping? with
      | some k => (⟨k, some n⟩, 2)
      | none => (⟨.clip, some n⟩, 1)
    | none, none => (⟨.clip, none⟩, 0)
  | [] => (⟨.clip, none⟩, 0)

-- The text after the line break at the front, which may be missing at the end of the document.
def dropBreak : List Char → List Char
  | '\r' :: '\n' :: r => r
  | c :: r => if isBreak c then r else c :: r
  | [] => []

-- The header up to the end of its line, where a comment may follow blanks.
def header? (s : List Char) : Except Problem (Header × List Char) :=
  let (h, n) := marks s
  let after := (s.drop n).dropWhile isBlank
  let line := if after.head? = some '#' then after.dropWhile (!isBreak ·) else after
  if line.head?.all isBreak && (s.drop n).head? ≠ some '0' then .ok (h, dropBreak line)
  else .error .badBlockHeader

-- A block scalar being read: its text, last character first; the break that ended the last line
-- of text, and whether that line began with a blank; the breaks of the empty lines since; and the
-- indentation, once it is known.
structure State where
  done : List Char
  first : List Char
  wasBlank : Bool
  more : List Char
  indent : Option Nat
  -- the widest line of blanks so far
  widest : Nat

-- What stands between two lines of text. Folding makes a single break a space, except beside lines
-- that begin with a blank.
def between (isLiteral : Bool) (s : State) (isBlankLine : Bool) : List Char :=
  if !isLiteral && s.first = ['\n'] && !s.wasBlank && !isBlankLine then
    if s.more.isEmpty then [' '] else s.more
  else s.first ++ s.more

def finish (c : Chomping) (s : State) : List Char :=
  match c with
  | .strip => s.done.reverse
  | .clip => s.done.reverse ++ s.first
  | .keep => s.done.reverse ++ (s.first ++ s.more)

-- The indentation, which the first line of text sets if the header does not. It is wider than that
-- of the collection around.
def settledIndent (least : Nat) (s : State) (column : Nat) : Nat :=
  s.indent.getD (max (max s.widest column) least)

-- `column` is `none` inside a line of text, and else counts the blanks at the start of a line.
def read (isLiteral : Bool) (chomping : Chomping) (least : Nat) (column : Option Nat) (s : State) :
    List Char → Except Problem Scanned
  | [] => .ok ⟨finish chomping s, true, []⟩
  | '\r' :: '\n' :: r =>
    match column with
    | none => read isLiteral chomping least (some 0) { s with first := ['\n'] } r
    | some _ => read isLiteral chomping least (some 0) { s with more := s.more ++ ['\n'] } r
  | c :: r =>
    match column with
    | none =>
      if isBreak c then read isLiteral chomping least (some 0) { s with first := breakText c } r
      else read isLiteral chomping least none { s with done := c :: s.done } r
    | some n =>
      let isInside := s.indent.all (n < ·)
      if c = ' ' && isInside then
        read isLiteral chomping least (some (n + 1)) { s with widest := max s.widest (n + 1) } r
      else if c = '\t' && isInside then .error .tabInIndentation
      else if isBreak c then
        read isLiteral chomping least (some 0) { s with more := s.more ++ breakText c } r
      else
        let indent := settledIndent least s n
        if n = indent then
          let s' :=
            { s with
              done := c :: ((between isLiteral s (isBlank c)).reverse ++ s.done)
              first := []
              wasBlank := isBlank c
              more := []
              indent := some indent }
          read isLiteral chomping least none s' r
        else .ok ⟨finish chomping s, true, c :: r⟩

end Block

-- A block scalar whose `|` or `>` has just been taken, in a collection indented by `parent`, or in
-- none.
def readBlock (isLiteral : Bool) (parent : Option Nat) (s : List Char) : Except Problem Scanned := do
  let (h, body) ← Block.header? s
  let least := (parent.map (· + 1)).getD 0 |> max 1
  let indent := h.indent.map ((parent.getD 0) + ·)
  Block.read isLiteral h.chomping least (some 0) ⟨[], [], false, [], indent, 0⟩ body

end LuaBundle.Yaml

import LuaBundle.Lua.Character
import LuaBundle.Yaml.PlainScalar

namespace LuaBundle.Yaml

namespace Quoted

-- What a character means after a backslash, for the escapes without digits.
def escape? (c : Char) : Option Char :=
  match c with
  | '0' => some '\x00'
  | 'a' => some '\x07'
  | 'b' => some '\x08'
  | 't' => some '\t'
  | '\t' => some '\t'
  | 'n' => some '\n'
  | 'v' => some '\x0b'
  | 'f' => some '\x0c'
  | 'r' => some '\r'
  | 'e' => some '\x1b'
  | ' ' => some ' '
  | '"' => some '"'
  | '/' => some '/'
  | '\\' => some '\\'
  | 'N' => some '\u0085'
  | '_' => some '\u00a0'
  | 'L' => some '\u2028'
  | 'P' => some '\u2029'
  | _ => none

-- The character that hexadecimal digits name.
def hexEscape? (digits : List Char) : Option Char :=
  let n := Lua.digitsValue 16 digits
  if digits.all Lua.isHexDigit && n.isValidChar then some (Char.ofNat n) else none

-- What was read, last character first, together with the gap after it.
def close (gap : Option Gap) (done : List Char) : List Char :=
  ((gap.map Gap.text).getD []).reverse ++ done

def addBlank (gap : Option Gap) (c : Char) : Option Gap :=
  some ((gap.getD (.blanks [])).addBlank c)

def addBreak (gap : Option Gap) (text : List Char) : Option Gap :=
  some ((gap.getD (.blanks [])).addBreak text)

-- In the readers `gap` is what was passed since the last character that stands for itself, and
-- `atStart` tells whether a line starts here. A quote in single quotes is written twice.
def readSingle (gap : Option Gap) (atStart : Bool) (done s : List Char) :
    Except Problem Scanned :=
  if atStart && atDocumentMark s then .error .documentMarkInScalar
  else
    match s with
    | [] => .error .unterminatedScalar
    | '\'' :: '\'' :: r => readSingle none false ('\'' :: close gap done) r
    | '\'' :: r => .ok ⟨(close gap done).reverse, false, r⟩
    | '\r' :: '\n' :: r => readSingle (addBreak gap ['\n']) true done r
    | c :: r =>
      if isBlank c then readSingle (addBlank gap c) false done r
      else if isBreak c then readSingle (addBreak gap (breakText c)) true done r
      else readSingle none false (c :: close gap done) r

-- A line break after a backslash stands for nothing, and neither do the blanks around it that
-- follow.
def escapedBreak : Option Gap :=
  some (.breaks [] [])

def readDouble (gap : Option Gap) (atStart : Bool) (done s : List Char) :
    Except Problem Scanned :=
  if atStart && atDocumentMark s then .error .documentMarkInScalar
  else
    match s with
    | [] => .error .unterminatedScalar
    | '"' :: r => .ok ⟨(close gap done).reverse, false, r⟩
    | '\\' :: '\r' :: '\n' :: r => readDouble escapedBreak true (close gap done) r
    | '\\' :: 'x' :: a :: b :: r =>
      match hexEscape? [a, b] with
      | some c => readDouble none false (c :: close gap done) r
      | none => .error .badEscape
    | '\\' :: 'u' :: a :: b :: c :: d :: r =>
      match hexEscape? [a, b, c, d] with
      | some c => readDouble none false (c :: close gap done) r
      | none => .error .badEscape
    | '\\' :: 'U' :: a :: b :: c :: d :: e :: f :: g :: h :: r =>
      match hexEscape? [a, b, c, d, e, f, g, h] with
      | some c => readDouble none false (c :: close gap done) r
      | none => .error .badEscape
    | '\\' :: c :: r =>
      if isBreak c then readDouble escapedBreak true (close gap done) r
      else
        match escape? c with
        | some c => readDouble none false (c :: close gap done) r
        | none => .error .badEscape
    | '\r' :: '\n' :: r => readDouble (addBreak gap ['\n']) true done r
    | c :: r =>
      if isBlank c then readDouble (addBlank gap c) false done r
      else if isBreak c then readDouble (addBreak gap (breakText c)) true done r
      else if c = '\\' then .error .unterminatedScalar
      else readDouble none false (c :: close gap done) r

end Quoted

-- A quoted scalar whose opening quote has just been taken.
def readQuoted (isSingle : Bool) (s : List Char) : Except Problem Scanned :=
  if isSingle then Quoted.readSingle none false [] s else Quoted.readDouble none false [] s

end LuaBundle.Yaml

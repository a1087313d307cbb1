import LuaBundle.Yaml.Character
import LuaBundle.Yaml.Implicit

namespace LuaBundle.Yaml

-- How a text is written.
inductive Style
  | plain
  | singleQuoted
  | doubleQuoted
  | literal
deriving DecidableEq, Repr

namespace Style

-- The characters that stand for themselves wherever they are written.
def isPrintable (c : Char) : Bool :=
  let n := c.toNat
  n = 0xA || (0x20 ≤ n && n ≤ 0x7E) || (0xA0 ≤ n && n ≤ 0xD7FF) ||
    (0xE000 ≤ n && n ≤ 0xFFFD && n ≠ 0xFEFF) || 0x10000 ≤ n

-- Whether some pair of neighbours has a property.
def hasPair (p : Char → Char → Bool) (s : List Char) : Bool :=
  (s.zip s.tail).any fun (a, b) => p a b

-- Readers drop spaces at the end of a line.
def hasSpaceBeforeBreak (s : List Char) : Bool :=
  hasPair (fun a b => a = ' ' && isBreak b) s

def hasBreakBeforeSpace (s : List Char) : Bool :=
  hasPair (fun a b => isBreak a && b = ' ') s

-- Whether a text starts as something other than a plain scalar does.
def startsAsIndicator (s : List Char) : Bool :=
  match s with
  | [] => false
  | c :: r =>
    s.take 3 = ['-', '-', '-'] || s.take 3 = ['.', '.', '.'] ||
      if c = '?' || c = '-' then atGap r
      else "#,[]\x7b\x7d&*!|>'\"%@`".toList.contains c

-- Whether a text holds what ends a plain scalar: a colon before a gap, or a comment after one.
def hasIndicator : List Char → Bool
  | [] => false
  | c :: r => (c = ':' && atGap r) || (isGap c && r.head? = some '#') || hasIndicator r

def allowsPlain (s : List Char) : Bool :=
  s.all isPrintable && !s.any isBreak && s.head? ≠ some ' ' && s.getLast? ≠ some ' ' &&
    !startsAsIndicator s && !hasIndicator s

def allowsSingleQuoted (s : List Char) : Bool :=
  s.all isPrintable && !hasSpaceBeforeBreak s && !hasBreakBeforeSpace s

def allowsLiteral (s : List Char) : Bool :=
  s.all isPrintable && !hasSpaceBeforeBreak s && s.getLast? ≠ some ' '

-- The simplest style that a text can be read back from.
def of (t : String) : Style :=
  let s := t.toList
  if s.contains '\n' then if allowsLiteral s then literal else doubleQuoted
  else if !isAmbiguous t && allowsPlain s then plain
  else if allowsSingleQuoted s then singleQuoted
  else doubleQuoted

end Style

def pad (indent : Nat) : List Char :=
  List.replicate indent ' '

-- A text with each line behind the indentation. Empty lines have none.
def indented (indent : Nat) (isFresh : Bool) : List Char → List Char
  | [] => []
  | c :: r =>
    if isBreak c then c :: indented indent true r
    else (if isFresh then pad indent else []) ++ c :: indented indent false r

def quoteSingle (indent : Nat) (s : List Char) : List Char :=
  let body := s.flatMap fun c => if c = '\'' then ['\'', '\''] else [c]
  -- a quote after a line break has the indentation in front of it, too
  let closing := if s.getLast?.any isBreak then pad indent else []
  '\'' :: indented indent false body ++ closing ++ ['\'']

def hexDigits (width n : Nat) : List Char :=
  (List.range width).reverse.map fun k => (Nat.digitChar (n / Nat.pow 16 k % 16)).toUpper

def escape (c : Char) : List Char :=
  '\\' ::
    match c with
    | '\x00' => ['0']
    | '\x07' => ['a']
    | '\x08' => ['b']
    | '\t' => ['t']
    | '\n' => ['n']
    | '\x0B' => ['v']
    | '\x0C' => ['f']
    | '\r' => ['r']
    | '\x1B' => ['e']
    | '"' => ['"']
    | '\\' => ['\\']
    | '\u0085' => ['N']
    | '\u2028' => ['L']
    | '\u2029' => ['P']
    | c =>
      if c.toNat ≤ 0xFF then 'x' :: hexDigits 2 c.toNat
      else if c.toNat ≤ 0xFFFF then 'u' :: hexDigits 4 c.toNat
      else 'U' :: hexDigits 8 c.toNat

def quoteDouble (s : List Char) : List Char :=
  let needsEscape (c : Char) := !Style.isPrintable c || isBreak c || c = '"' || c = '\\'
  '"' :: (s.flatMap fun c => if needsEscape c then escape c else [c]) ++ ['"']

-- The signs in the first line of a literal scalar: the indentation, where the text hides it, and
-- what becomes of the line breaks at the end.
def literalHints (s : List Char) : List Char :=
  let hidesIndent := s.head?.any fun c => c = ' ' || isBreak c
  let keeps :=
    match s.reverse with
    | [c] => isBreak c
    | c :: d :: _ => isBreak c && isBreak d
    | [] => false
  (if hidesIndent then ['2'] else []) ++
    if keeps then ['+'] else if s.getLast?.any isBreak then [] else ['-']

def quoteLiteral (indent : Nat) (s : List Char) : List Char :=
  '|' :: literalHints s ++ '\n' :: indented indent true s

-- A text as a scalar with the end of its last line. Further lines are indented by `indent`.
def writeScalar (indent : Nat) (t : String) : List Char :=
  let s := t.toList
  match Style.of t with
  | .plain => s ++ ['\n']
  | .singleQuoted => quoteSingle indent s ++ ['\n']
  | .doubleQuoted => quoteDouble s ++ ['\n']
  | .literal => quoteLiteral indent s ++ if s.getLast?.any isBreak then [] else ['\n']

end LuaBundle.Yaml

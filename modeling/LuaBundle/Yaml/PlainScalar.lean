import LuaBundle.Yaml.Character
import LuaBundle.Yaml.Token

namespace LuaBundle.Yaml

-- What separates two words of a scalar: blanks on one line, or the first line break and those of
-- the empty lines after it.
inductive Gap
  | blanks (text : List Char)
  | breaks (first more : List Char)

namespace Gap

-- What the gap means: blanks stand for themselves, one line break for a space, and more of them
-- for all but the first.
def text : Gap → List Char
  | blanks text => text
  | breaks ['\n'] [] => [' ']
  | breaks ['\n'] more => more
  | breaks first more => first ++ more

def addBlank : Gap → Char → Gap
  | blanks text, c => blanks (text ++ [c])
  | breaks first more, _ => breaks first more

def addBreak : Gap → List Char → Gap
  | blanks _, text => breaks text []
  | breaks first more, text => breaks first (more ++ text)

def isBreaks : Gap → Bool
  | blanks _ => false
  | breaks .. => true

end Gap

-- A scalar that was read, whether the text after it starts on another line, and that text.
structure Scanned where
  text : List Char
  isBroken : Bool
  rest : List Char

namespace Plain

-- Flow collections reserve their punctuation.
def isFlowIndicator (c : Char) : Bool :=
  c = ',' || c = '[' || c = ']' || c = '\x7b' || c = '\x7d'

-- Where a plain scalar stops although no blank follows.
def stopsAt (inFlow : Bool) (s : List Char) : Bool :=
  match s with
  | [] => true
  | c :: r => (c = ':' && atGap r) || (inFlow && isFlowIndicator c)

-- A colon that reads neither as text nor as a separator.
def isStrayColon (inFlow : Bool) (s : List Char) : Bool :=
  match s with
  | ':' :: c :: _ => inFlow && (isFlowIndicator c || c = '?')
  | _ => false

-- Whether the text after a gap, at the given column of its line if a line break was crossed, still
-- belongs to the scalar.
def goesOn (inFlow : Bool) (indent column : Nat) (gap : Gap) (s : List Char) : Bool :=
  !(gap.isBreaks && ((!inFlow && column < indent) || (column = 0 && atDocumentMark s))) &&
    s.head? ≠ some '#'

-- Inside a word `gap` is `none`; between words it is the gap so far, and `column` counts from the
-- last line break. `done` is what was read, last character first.
def read (inFlow : Bool) (indent : Nat) (gap : Option Gap) (column : Nat) (done : List Char) :
    List Char → Except Problem Scanned
  | [] => .ok ⟨done.reverse, gap.any Gap.isBreaks, []⟩
  | '\r' :: '\n' :: r =>
    read inFlow indent (some ((gap.getD (.blanks [])).addBreak ['\n'])) 0 done r
  | c :: r =>
    if isBlank c then
      if c = '\t' && gap.any Gap.isBreaks && column < indent then .error .tabInIndentation
      else read inFlow indent (some ((gap.getD (.blanks [])).addBlank c)) (column + 1) done r
    else if isBreak c then
      read inFlow indent (some ((gap.getD (.blanks [])).addBreak (breakText c))) 0 done r
    else if gap.any fun g => !goesOn inFlow indent column g (c :: r) then
      .ok ⟨done.reverse, gap.any Gap.isBreaks, c :: r⟩
    else if isStrayColon inFlow (c :: r) then .error .colonInFlow
    else if stopsAt inFlow (c :: r) then .ok ⟨done.reverse, gap.any Gap.isBreaks, c :: r⟩
    else
      let between := (gap.map Gap.text).getD []
      read inFlow indent none (column + 1) (c :: (between.reverse ++ done)) r

end Plain

-- A plain scalar in a collection whose content is indented by `indent`.
def readPlain (inFlow : Bool) (indent : Nat) (s : List Char) : Except Problem Scanned :=
  Plain.read inFlow indent none 0 [] s

end LuaBundle.Yaml

namespace LuaBundle.Yaml

def isBlank (c : Char) : Bool :=
  c = ' ' || c = '\t'

-- Line feed and carriage return, and the three line breaks of Unicode.
def isBreak (c : Char) : Bool :=
  c = '\n' || c = '\r' || c = '\u0085' || c = '\u2028' || c = '\u2029'

def isGap (c : Char) : Bool :=
  isBlank c || isBreak c

-- Whether a text is over or goes on with a blank or a line break.
def atGap (s : List Char) : Bool :=
  s.head?.all isGap

-- What a line break means in a scalar: all but the two Unicode separators are line feeds.
def breakText (c : Char) : List Char :=
  if c = '\u2028' || c = '\u2029' then [c] else ['\n']

def byteOrderMark : Char :=
  '\uFEFF'

-- The characters that a document may hold.
def isAllowed (c : Char) : Bool :=
  let n := c.toNat
  n = 0x9 || n = 0xA || n = 0xD || (0x20 ≤ n && n ≤ 0x7E) || n = 0x85 ||
    (0xA0 ≤ n && n ≤ 0xD7FF) || (0xE000 ≤ n && n ≤ 0xFFFD) || 0x10000 ≤ n

-- The characters of directive names, anchors and tag handles.
def isWord (c : Char) : Bool :=
  c.isAlphanum || c = '_' || c = '-'

-- Three dashes or dots and a gap: the line that separates documents.
def atDocumentMark (s : List Char) : Bool :=
  (s.take 3 = ['-', '-', '-'] || s.take 3 = ['.', '.', '.']) && atGap (s.drop 3)

end LuaBundle.Yaml

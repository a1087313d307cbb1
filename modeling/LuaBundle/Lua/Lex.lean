import LuaBundle.Text.Size
import LuaBundle.Lua.ShortLiteral
import LuaBundle.Lua.Trivia

namespace LuaBundle.Lua

def isNumeralCharacter (c : Char) : Bool :=
  c.isAlphanum || c = '.' || c = '_'

def isExponentMark (c : Char) : Bool :=
  c = 'e' || c = 'E' || c = 'p' || c = 'P'

def isSign (c : Char) : Bool :=
  c = '+' || c = '-'

-- The rest of a numeral after its character `last`. A sign belongs to it right after an exponent
-- mark only.
def numeralTail (last : Char) (s : List Char) : List Char :=
  match s with
  | [] => []
  | c :: r =>
    if isNumeralCharacter c || (isSign c && isExponentMark last) then c :: numeralTail c r else []

theorem numeralTail_isPrefix (last : Char) (s : List Char) : numeralTail last s <+: s := by
  induction s generalizing last with
  | nil => simp [numeralTail]
  | cons c r ih =>
    rw [numeralTail]
    split
    · simpa using ih c
    · simp

def startsWithDigit (s : List Char) : Bool :=
  s.head?.any Char.isDigit

def symbolPairs : List (List Char) :=
  ["..", "==", "~=", "<=", ">=", "::", "//", "<<", ">>"].map String.toList

-- What is left of a symbol after its first character: the longest symbol wins.
def symbolTail (first : Char) (s : List Char) : List Char :=
  if first = '.' ∧ s.take 2 = ['.', '.'] then s.take 2
  else if first :: s.take 1 ∈ symbolPairs then s.take 1
  else []

theorem symbolTail_isPrefix (first : Char) (s : List Char) : symbolTail first s <+: s := by
  unfold symbolTail
  split
  · exact List.take_prefix 2 s
  · split
    · exact List.take_prefix 1 s
    · simp

-- The token that begins with the character `first`.
def token (first : Char) (s : List Char) : Reading Kind :=
  if first = '"' ∨ first = '\'' then
    let body := shortBody first s
    ⟨first :: body.text, .str (String.ofList (Text.decodeLossy body.value)), body.rest⟩
  else if first.isDigit ∨ (first = '.' ∧ startsWithDigit s) then
    let tail := numeralTail first s
    ⟨first :: tail, .number, s.drop tail.length⟩
  else if isNameStart first then
    let tail := s.takeWhile isNameCharacter
    ⟨first :: tail, .name (String.ofList (first :: tail)), s.dropWhile isNameCharacter⟩
  else
    match if first = '[' then longLevel? s else none with
    | some (level, inside) =>
      let body := longBody level inside
      ⟨first :: (longOpener level ++ body.text), .str (String.ofList body.value), body.rest⟩
    | none =>
      let tail := symbolTail first s
      ⟨first :: tail, .symbol (String.ofList (first :: tail)), s.drop tail.length⟩

theorem append_drop_of_isPrefix {s t : List Char} (h : t <+: s) : t ++ s.drop t.length = s := by
  obtain ⟨u, rfl⟩ := h
  simp

theorem token_splits (first : Char) (s : List Char) : (token first s).Splits (first :: s) := by
  fun_cases token first s
  case case1 => exact congrArg (first :: ·) (shortBody_splits first s)
  case case2 => exact congrArg (first :: ·) (append_drop_of_isPrefix (numeralTail_isPrefix first s))
  case case3 => exact congrArg (first :: ·) List.takeWhile_append_dropWhile
  case case4 level inside h body =>
    have hl : longLevel? s = some (level, inside) := by
      split at h
      case isTrue => exact h
      case isFalse => cases h
    have hb : body.text ++ body.rest = inside := longBody_splits level inside
    simp [Reading.Splits, hb, longOpener_append_of_longLevel? hl]
  case case5 => exact congrArg (first :: ·) (append_drop_of_isPrefix (symbolTail_isPrefix first s))

theorem token_text_ne_nil (first : Char) (s : List Char) : (token first s).text ≠ [] := by
  fun_cases token first s
  all_goals exact List.cons_ne_nil _ _

theorem length_token_rest_lt {s r : List Char} {c : Char} (h : (trivia s).2 = c :: r) :
    (token c r).rest.length < s.length := by
  have h₁ := congrArg List.length (token_splits c r)
  have h₂ := congrArg List.length (trivia_append s)
  have h₃ := List.length_pos_iff.mpr (token_text_ne_nil c r)
  simp only [h, List.length_append] at h₁ h₂
  omega

-- The tokens of a text that starts at the byte offset `start`.
def lexFrom (start : Nat) (s : List Char) : List Token :=
  go start s []
where
  go (start : Nat) (s : List Char) (acc : List Token) : List Token :=
    match _h : (trivia s).2 with
    | [] => acc.reverse
    | c :: r =>
      let tokenStart := start + Text.size (trivia s).1
      let t := token c r
      let tokenStop := tokenStart + Text.size t.text
      go tokenStop t.rest (⟨t.value, tokenStart, tokenStop⟩ :: acc)
  termination_by s.length
  decreasing_by exact length_token_rest_lt _h

theorem lexFrom.go_eq (start : Nat) (s : List Char) (acc : List Token) :
    go start s acc = acc.reverse ++ go start s [] := by
  rw [go, go.eq_def start s []]
  split
  · simp
  · rw [go_eq _ _ (_ :: acc), go_eq _ _ [_]]
    simp
termination_by s.length
decreasing_by all_goals exact length_token_rest_lt (by assumption)

theorem lexFrom_eq (start : Nat) (s : List Char) :
    lexFrom start s =
      match (trivia s).2 with
      | [] => []
      | c :: r =>
        let tokenStart := start + Text.size (trivia s).1
        let tokenStop := tokenStart + Text.size (token c r).text
        ⟨(token c r).value, tokenStart, tokenStop⟩ :: lexFrom tokenStop (token c r).rest := by
  rw [lexFrom, lexFrom.go]
  split
  case h_1 h => simp [h]
  case h_2 h => rw [lexFrom.go_eq, h]; rfl

-- What may stand in front of the program: a byte order mark and a line that starts with `#`.
def preamble (s : List Char) : List Char × List Char :=
  match s with
  | '\uFEFF' :: r => ('\uFEFF' :: (hashLine r).1, (hashLine r).2)
  | _ => hashLine s
where
  hashLine (s : List Char) : List Char × List Char :=
    if s.head? = some '#' then (s.takeWhile (· ≠ '\n'), s.dropWhile (· ≠ '\n')) else ([], s)

theorem preamble.hashLine_append (s : List Char) : (hashLine s).1 ++ (hashLine s).2 = s := by
  unfold hashLine
  split <;> simp

theorem preamble_append (s : List Char) : (preamble s).1 ++ (preamble s).2 = s := by
  unfold preamble
  split <;> simp [preamble.hashLine_append]

-- The tokens of a program, with byte offsets into its whole text.
def lex (source : String) : List Token :=
  let (skipped, program) := preamble source.toList
  lexFrom (Text.size skipped) program

end LuaBundle.Lua

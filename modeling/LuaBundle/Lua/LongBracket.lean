import LuaBundle.Lua.Token

namespace LuaBundle.Lua

-- The level of a long bracket whose first `[` has just been taken, and the text inside and after
-- it: `[` opens level 0, `==[` level 2. A lone `[` opens none.
def longLevel? (s : List Char) : Option (Nat × List Char) :=
  match s.dropWhile (· = '=') with
  | '[' :: body => some ((s.takeWhile (· = '=')).length, body)
  | _ => none

def longOpener (level : Nat) : List Char :=
  List.replicate level '=' ++ ['[']

def longCloser (level : Nat) : List Char :=
  ']' :: (List.replicate level '=' ++ [']'])

theorem longOpener_append_of_longLevel? {s body : List Char} {level : Nat}
    (h : longLevel? s = some (level, body)) : longOpener level ++ body = s := by
  unfold longLevel? at h
  split at h
  case h_1 r hr =>
    obtain ⟨rfl, rfl⟩ := by simpa using h
    have he : List.replicate (s.takeWhile (· = '=')).length '=' = s.takeWhile (· = '=') := by
      symm
      refine List.eq_replicate_iff.mpr ⟨rfl, fun c hc => ?_⟩
      simpa using List.all_eq_true.mp List.all_takeWhile c hc
    rw [longOpener, he, List.append_assoc, List.singleton_append, ← hr,
      List.takeWhile_append_dropWhile]
  case h_2 => simp at h

-- A line break at the very start of a long bracket is not part of it.
def leadingBreak : List Char → List Char
  | '\r' :: '\n' :: _ => ['\r', '\n']
  | '\n' :: '\r' :: _ => ['\n', '\r']
  | '\r' :: _ => ['\r']
  | '\n' :: _ => ['\n']
  | _ => []

theorem leadingBreak_append_drop (s : List Char) :
    leadingBreak s ++ s.drop (leadingBreak s).length = s := by
  unfold leadingBreak
  split <;> simp

-- The text before and after the first occurrence of `pattern`.
def breakOn? (pattern s : List Char) : Option (List Char × List Char) :=
  go s []
where
  go : List Char → List Char → Option (List Char × List Char)
    | s, acc =>
      if pattern.isPrefixOf s then some (acc.reverse, s.drop pattern.length)
      else match s with
        | [] => none
        | c :: r => go r (c :: acc)

theorem breakOn?.append_of_go {pattern s acc before after : List Char}
    (h : breakOn?.go pattern s acc = some (before, after)) :
    before ++ (pattern ++ after) = acc.reverse ++ s := by
  induction s generalizing acc with
  | nil =>
    rw [go] at h
    split at h
    case isTrue hp =>
      obtain ⟨rfl, rfl⟩ := by simpa using h
      simpa using hp
    case isFalse => simp at h
  | cons c r ih =>
    rw [go] at h
    split at h
    case isTrue hp =>
      obtain ⟨rfl, rfl⟩ := by simpa using h
      obtain ⟨t, ht⟩ := List.isPrefixOf_iff_prefix.mp hp
      rw [← ht]
      simp
    case isFalse => simpa using ih h

theorem append_of_breakOn? {pattern s before after : List Char}
    (h : breakOn? pattern s = some (before, after)) : before ++ (pattern ++ after) = s := by
  simpa using breakOn?.append_of_go h

-- The inside of a long bracket up to its closer, and all of the text if there is none.
def longBody (level : Nat) (s : List Char) : Reading (List Char) :=
  let skipped := leadingBreak s
  let inside := s.drop skipped.length
  match breakOn? (longCloser level) inside with
  | some (content, rest) => ⟨skipped ++ (content ++ longCloser level), content, rest⟩
  | none => ⟨s, inside, []⟩

theorem longBody_splits (level : Nat) (s : List Char) : (longBody level s).Splits s := by
  simp only [longBody]
  split
  case h_1 content rest h =>
    have := append_of_breakOn? h
    rw [Reading.Splits, List.append_assoc, List.append_assoc, this, leadingBreak_append_drop]
  case h_2 => simp [Reading.Splits]

end LuaBundle.Lua

import LuaBundle.Lua.Character
import LuaBundle.Lua.LongBracket

namespace LuaBundle.Lua

-- A comment whose `--` has just been taken. It is long if a long bracket follows at once, and
-- else stops before the line feed.
def comment (s : List Char) : List Char × List Char :=
  match s with
  | '[' :: r =>
    match longLevel? r with
    | some (level, body) =>
      let long := longBody level body
      ('[' :: (longOpener level ++ long.text), long.rest)
    | none => (s.takeWhile (· ≠ '\n'), s.dropWhile (· ≠ '\n'))
  | _ => (s.takeWhile (· ≠ '\n'), s.dropWhile (· ≠ '\n'))

theorem comment_append (s : List Char) : (comment s).1 ++ (comment s).2 = s := by
  unfold comment
  split
  case h_1 r =>
    split
    case h_1 level body h =>
      have := longBody_splits level body
      rw [Reading.Splits] at this
      simp [this, longOpener_append_of_longLevel? h]
    case h_2 => simp
  case h_2 => simp

theorem length_comment_le (s : List Char) : (comment s).2.length ≤ s.length := by
  have := congrArg List.length (comment_append s)
  simp at this
  omega

-- White space and comments in front of a token, and the text from that token on.
def trivia (s : List Char) : List Char × List Char :=
  let blank := s.takeWhile isSpace
  match _h : s.dropWhile isSpace with
  | '-' :: '-' :: r =>
    let more := trivia (comment r).2
    (blank ++ '-' :: '-' :: ((comment r).1 ++ more.1), more.2)
  | r => (blank, r)
termination_by s.length
decreasing_by
  have h₁ := length_comment_le r
  have h₂ := (List.dropWhile_sublist (l := s) isSpace).length_le
  simp only [_h, List.length_cons] at h₂
  omega

theorem trivia_append (s : List Char) : (trivia s).1 ++ (trivia s).2 = s := by
  fun_induction trivia s with
  | case1 s blank r h more ih =>
    have hs := List.takeWhile_append_dropWhile (p := isSpace) (l := s)
    rw [h] at hs
    simp only [List.append_assoc, List.cons_append, more, ih, comment_append]
    exact hs
  | case2 s blank hc => exact List.takeWhile_append_dropWhile

end LuaBundle.Lua

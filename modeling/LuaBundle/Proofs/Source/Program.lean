import LuaBundle.Source.Embed
import LuaBundle.Proofs.Lua.Places

namespace LuaBundle.Lua

open Embed Text

section Preamble

variable {s p : List Char}

-- A first line that is skipped ends where the line ends, and without one the text is the program.
theorem preamble.hashLine_cases (s : List Char) :
    hashLine s = ([], s) ∨ (hashLine s).2.head?.all (· = '\n') := by
  unfold hashLine
  split
  case isTrue => exact .inr (by simpa using head?_dropWhile_all (· ≠ '\n') s)
  case isFalse => exact .inl rfl

-- The program `p` may stand in the place of the program `q`: it begins in the same way, or with
-- white space where `q` begins with a token.
def MayStart (q p : List Char) : Prop :=
  p.head? = q.head? ∨ p.head?.any isSpace ∧ q.head?.any fun c => !isSpace c

-- A character that is no white space begins no program that could not begin with it.
theorem MayStart.head?_ne {q : List Char} {c : Char} (h : MayStart q p) (hc : isSpace c = false)
    (hq : q.head? ≠ some c) : p.head? ≠ some c := by
  rcases h with h | ⟨h, -⟩
  case inl => rwa [h]
  case inr =>
    intro hp
    simp [hp, hc] at h

-- In the place of a line feed stands a line feed.
theorem MayStart.head?_eq {q : List Char} (h : MayStart q p) (hq : q.head?.all (· = '\n')) :
    p.head? = q.head? := by
  refine h.resolve_right fun ⟨_, hc⟩ => ?_
  have hfeed : isSpace '\n' := by decide
  cases q with
  | nil => cases hc
  | cons c q =>
    obtain rfl : c = '\n' := by simpa using hq
    simp [hfeed] at hc

-- What is skipped does not hang on the program behind its first character.
theorem preamble.hashLine_exchange (hp : MayStart (hashLine s).2 p) :
    hashLine ((hashLine s).1 ++ p) = ((hashLine s).1, p) := by
  by_cases hs : s.head? = some '#'
  case pos =>
    have he : hashLine s = (s.takeWhile (· ≠ '\n'), s.dropWhile (· ≠ '\n')) := if_pos hs
    obtain ⟨r, rfl⟩ := List.head?_eq_some_iff.mp hs
    have hn := head?_dropWhile_all (fun c => decide (c ≠ '\n')) ('#' :: r)
    rw [he] at hp ⊢
    rw [← hp.head?_eq (by simpa using hn)] at hn
    have ht : ∀ c ∈ ('#' :: r).takeWhile (fun c => decide (c ≠ '\n')), decide (c ≠ '\n') :=
      fun _ => List.mem_takeWhile_imp
    rw [hashLine, if_pos (by simp), takeWhile_append_of_head? ht hn,
      dropWhile_append_of_head? ht hn]
  case neg =>
    have he : hashLine s = ([], s) := if_neg hs
    rw [he] at hp ⊢
    exact if_neg (hp.head?_ne (by decide) hs)

theorem preamble_eq_hashLine (hs : s.head? ≠ some byteOrderMark) :
    preamble s = preamble.hashLine s := by
  unfold preamble
  split
  case h_1 => exact absurd rfl hs
  case h_2 => rfl

theorem preamble_exchange (hp : MayStart (preamble s).2 p) :
    preamble ((preamble s).1 ++ p) = ((preamble s).1, p) := by
  by_cases hs : s.head? = some byteOrderMark
  case pos =>
    obtain ⟨r, rfl⟩ := List.head?_eq_some_iff.mp hs
    have he (r : List Char) : preamble (byteOrderMark :: r) =
        (byteOrderMark :: (preamble.hashLine r).1, (preamble.hashLine r).2) := rfl
    rw [he] at hp ⊢
    rw [List.cons_append, he, preamble.hashLine_exchange hp]
  case neg =>
    rw [preamble_eq_hashLine hs] at hp ⊢
    rw [preamble_eq_hashLine, preamble.hashLine_exchange hp]
    have hsplit := preamble.hashLine_append s
    cases hl : (preamble.hashLine s).1 with
    | nil =>
      rw [hl, List.nil_append] at hsplit
      rw [hsplit] at hp
      exact hp.head?_ne (by decide) hs
    | cons d l =>
      rw [hl, List.cons_append] at hsplit
      rwa [← hsplit] at hs

theorem preamble_cases (s : List Char) :
    (preamble s).1 = [] ∨ (preamble s).1 = [byteOrderMark] ∨
      (preamble s).2.head?.all (· = '\n') := by
  unfold preamble
  split
  case h_1 r =>
    rcases preamble.hashLine_cases r with h | h
    case inl => exact .inr (.inl (by rw [h]; rfl))
    case inr => exact .inr (.inr h)
  case h_2 =>
    rcases preamble.hashLine_cases s with h | h
    case inl => exact .inl (by rw [h])
    case inr => exact .inr (.inr h)

end Preamble

-- A token that begins with `c` in front of `r` stands in a source behind `before`, after the tokens
-- `earlier`.
structure StandsIn (source : String) (earlier : List Token) (before : List Char) (c : Char)
    (r : List Char) : Prop where
  eq : source.toList = before ++ c :: r
  skips : (preamble source.toList).1 <+: before
  apart : isWord c → before = [byteOrderMark] ∨ before.getLast?.all fun d => !isNameCharacter d
  -- what begins in the same way or with white space may stand in its place
  exchange : ∀ {y : List Char}, y.head? = some c ∨ y.head?.any isSpace → Neutral (c :: r) y →
    lex (String.ofList (before ++ y)) = earlier ++ lexFrom (size before) y

namespace StandsIn

variable {source : String} {earlier tokens : List Token} {before r y : List Char} {c : Char}

theorem lexFrom_eq (h : StandsIn source earlier before c r) (hl : lex source = earlier ++ tokens) :
    lexFrom (size before) (c :: r) = tokens := by
  have hsame := h.exchange (y := c :: r) (.inl rfl) .rfl
  rw [← h.eq, String.ofList_toList] at hsame
  exact List.append_cancel_left (hsame.symm.trans hl)

-- What begins with the first character of a name opens no bracket.
theorem exchange_of_isNameStart (h : StandsIn source earlier before c r) (hc : isNameStart c)
    (hy : y.head? = some c) :
    lex (String.ofList (before ++ y)) = earlier ++ lexFrom (size before) y := by
  refine h.exchange (.inl hy) ⟨.inl hy, fun hlong => ?_⟩
  obtain ⟨y, rfl⟩ := List.head?_eq_some_iff.mp hy
  have hequals : c ≠ '=' := fun he => absurd hc (by simp [he, isNameStart])
  have hbracket : c ≠ '[' := fun he => absurd hc (by simp [he, isNameStart])
  simp [longLevel?, hequals, hbracket] at hlong

end StandsIn

theorem lex_eq_lexFrom (source : String) :
    lex source = lexFrom (size (preamble source.toList).1) (preamble source.toList).2 :=
  rfl

theorem exists_standsIn {source : String} {earlier later : List Token} {t : Token}
    (h : lex source = earlier ++ t :: later) :
    ∃ before c r, StandsIn source earlier before c r ∧
      t = ⟨(token c r).value, size before, size before + size (token c r).text⟩ ∧
      later = lexFrom t.stop (token c r).rest := by
  rw [lex_eq_lexFrom] at h
  obtain ⟨before, c, r, stands, ht, hlater⟩ := exists_stands h
  have hprogram := stands.eq
  refine ⟨(preamble source.toList).1 ++ before, c, r,
    { eq := by rw [List.append_assoc, ← hprogram, preamble_append]
      skips := List.prefix_append _ _
      apart := fun hw => ?_
      exchange := fun {y} hy hn => ?_ }, by rw [ht, size_append], hlater⟩
  · have hb := stands.apart hw
    cases before with
    | cons => exact .inr (by simpa [List.getLast?_append, List.getLast?_cons] using hb)
    | nil =>
      rcases preamble_cases source.toList with h | h | h
      · exact .inr (by simp [h])
      · exact .inl (by simp [h])
      · obtain rfl : c = '\n' := by simpa [hprogram] using h
        exact absurd hw (by decide)
  · have hp : MayStart (preamble source.toList).2 (before ++ y) := by
      rw [hprogram]
      cases before with
      | cons => exact .inl rfl
      | nil => exact hy.imp_right fun hs => ⟨hs, by simp [not_isSpace_of_bare stands.bare]⟩
    rw [lex_eq_lexFrom, String.toList_ofList, List.append_assoc, preamble_exchange hp, size_append]
    exact stands.exchange hn

end LuaBundle.Lua

import LuaBundle.Proofs.Lua.Numeral
import LuaBundle.Proofs.Source.Spacing

namespace LuaBundle

open Lua Text

variable {n : List Char} {s : String}

-- A number in front of tokens makes no difference to what they tell.
theorem Requires.outline?_number {source source' : String} {lines lines' : Lines} {t : Token}
    {tokens tokens' : List Token} (ht : t.kind = .number)
    (h : tokens'.map Token.kind = tokens.map Token.kind) :
    outline? source' lines' none (t :: tokens') = outline? source lines none tokens := by
  have hother : ∀ u ∈ [] ++ [t], u.kind ≠ .name "require" := by simp [ht]
  have hbeside : Mention.Beside none (some t) := by
    constructor <;> simp [Mention.isForeign, Token.isSymbol, Token.isName, ht]
  exact (outline?_append hother).trans (outline?_eq_of_kinds h hbeside)

-- A numeral ends where it should, and calls behind it are found, in front of everything that it
-- does not go on with. Only a sign behind a hexadecimal numeral that ends in `e` is taken for that
-- of an exponent, with whatever stands behind it.
theorem lex_numeral_append (h : IsNumeral n)
    (hs : s.toList.head?.all fun c => !isNumeralCharacter c) :
    (lex (String.ofList n ++ s) =
        ⟨.number, 0, size n⟩ :: (lex ("\n" ++ s)).map (Token.shift (size n - 1)) ↔
      ¬ TakesSign n s.toList) ∧
    (¬ TakesSign n s.toList →
      (Requires.of (String.ofList n ++ s)).toOption.map Requires.outline =
        (Requires.of ("\n" ++ s)).toOption.map Requires.outline) ∧
    (TakesSign n s.toList → ∃ x r, (x = 'x' ∨ x = 'X') ∧ n = '0' :: x :: r) := by
  refine ⟨h.lex_append_eq_iff hs, fun htakes => ?_, h.exists_of_takesSign⟩
  have hlex := (h.lex_append_eq_iff hs).mpr htakes
  have hkinds : ((lex ("\n" ++ s)).map (Token.shift (size n - 1))).map Token.kind =
      (lex ("\n" ++ s)).map Token.kind := by
    rw [List.map_map]
    rfl
  have htold : Requires.outline? (String.ofList n ++ s) (.of (String.ofList n ++ s)) none
        (⟨.number, 0, size n⟩ :: (lex ("\n" ++ s)).map (Token.shift (size n - 1))) =
      Requires.outline? ("\n" ++ s) (.of ("\n" ++ s)) none (lex ("\n" ++ s)) :=
    Requires.outline?_number rfl hkinds
  rwa [← hlex] at htold

-- A hexadecimal numeral with an exponent, and a minus in front of a call.
theorem lex_numeral_append_minus :
    IsNumeral ['0', 'x', '.', 'E', 'p', '-', '1'] ∧
    ("-require'a'".toList.head?.all fun c => !isNumeralCharacter c) ∧
    ¬ TakesSign ['0', 'x', '.', 'E', 'p', '-', '1'] "-require'a'".toList ∧
    lex (String.ofList ['0', 'x', '.', 'E', 'p', '-', '1'] ++ "-require'a'") =
      ⟨.number, 0, 7⟩ :: (lex ("\n" ++ "-require'a'")).map (Token.shift 6) ∧
    (Requires.of (String.ofList ['0', 'x', '.', 'E', 'p', '-', '1'] ++ "-require'a'")).toOption.map
        Requires.outline =
      (Requires.of ("\n" ++ "-require'a'")).toOption.map Requires.outline := by
  have hm : IsMantissa .hexadecimal ([] ++ '.' :: ['E']) :=
    .pointed (by decide) (List.forall_mem_singleton.mpr (by decide))
  have he : IsExponent .hexadecimal ('p' :: (['-'] ++ ['1'])) :=
    .present (by decide) (by decide) (by decide) (List.forall_mem_singleton.mpr (by decide))
  have h : IsNumeral (['0', 'x'] ++ ([] ++ '.' :: ['E'] ++ 'p' :: (['-'] ++ ['1']))) :=
    .of .hexadecimal (by decide) hm he
  have hs : "-require'a'".toList.head?.all fun c => !isNumeralCharacter c := by decide +kernel
  have htakes : ¬ TakesSign ['0', 'x', '.', 'E', 'p', '-', '1'] "-require'a'".toList := by
    simp [TakesSign]
  obtain ⟨hlex, hrequires, -⟩ := lex_numeral_append h hs
  exact ⟨h, hs, htakes, hlex.mpr htakes, hrequires htakes⟩

-- The `e` is the last digit of the number, and the plus adds what the call gives.
theorem not_lex_numeral_append_hexadecimal :
    IsNumeral ['0', 'x', 'e'] ∧
    ("+require 'a'".toList.head?.all fun c => !isNumeralCharacter c) ∧
    (∀ t, t ≠ [] → t <+: "+require 'a'".toList → ¬ IsNumeral (['0', 'x', 'e'] ++ t)) ∧
    lex (String.ofList ['0', 'x', 'e'] ++ "+require 'a'") =
      [⟨.number, 0, 11⟩, ⟨.str "a", 12, 15⟩] ∧
    lex (String.ofList ['0', 'x', 'e'] ++ "+require 'a'") ≠
      ⟨.number, 0, 3⟩ :: (lex ("\n" ++ "+require 'a'")).map (Token.shift 2) ∧
    (Requires.of (String.ofList ['0', 'x', 'e'] ++ "+require 'a'")).toOption.map
        Requires.outline = some ([], 0) ∧
    (Requires.of ("\n" ++ "+require 'a'")).toOption.map Requires.outline = some (["a"], 0) := by
  have hm : IsMantissa .hexadecimal ['e'] :=
    .whole (by decide) (List.forall_mem_singleton.mpr (by decide))
  have h : IsNumeral (['0', 'x'] ++ (['e'] ++ [])) := .of .hexadecimal (by decide) hm .absent
  refine ⟨h, by decide +kernel, fun t hne hprefix ht => ?_, by decide +kernel, by decide +kernel,
    by decide +kernel, by decide +kernel⟩
  obtain ⟨c, t, rfl⟩ := List.exists_cons_of_ne_nil hne
  have hplus : "+require 'a'".toList = '+' :: "require 'a'".toList := by simp
  rw [hplus, List.cons_prefix_cons] at hprefix
  obtain ⟨rfl, -⟩ := hprefix
  exact absurd (h.isNumeralCharacter_of_append ht) (by decide)

end LuaBundle

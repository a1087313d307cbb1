import LuaBundle.Bundle.Stringified
import LuaBundle.Proofs.Lua.Places
import LuaBundle.Proofs.Lua.Quote
import LuaBundle.Proofs.Text.Base64

namespace LuaBundle

open Lua Text

namespace Bundle

theorem lexFrom_equals (n : Nat) (y : List Char) :
    lexFrom n ('=' :: ' ' :: y) = ⟨.symbol "=", n, n + 1⟩ :: lexFrom (n + 2) y := by
  have hbare : Bare (['='] ++ ' ' :: y) := ⟨by simp [isSpace], by simp⟩
  have hbegins : Begins (['='] ++ ' ' :: y) (.symbol "=") (' ' :: y) := .of_bare hbare rfl rfl rfl
  exact (hbegins.lexFrom_append hbare n).trans (by rw [lexFrom_cons_space (by decide)]; rfl)

theorem toList_wrap (encoded : String) : (wrap encoded).toList =
    "local".toList ++ ' ' :: ("CodeString".toList ++ ' ' :: '=' :: ' ' ::
      (('\'' :: (encoded.toList ++ ['\''])) ++ '\n' ::
        ("return".toList ++ ' ' :: ("CodeString".toList ++ [])))) := by
  have hfront : "local CodeString = '".toList =
      "local".toList ++ ' ' :: ("CodeString".toList ++ [' ', '=', ' ', '\'']) := by
    decide +kernel
  have hback : "'\nreturn CodeString".toList =
      '\'' :: '\n' :: ("return".toList ++ ' ' :: "CodeString".toList) := by
    decide +kernel
  unfold wrap
  rw [String.toList_append, String.toList_append, hfront, hback]
  generalize "local".toList = a
  generalize "CodeString".toList = b
  generalize "return".toList = c
  simp

theorem lex_wrap {encoded : String} (h : ∀ c ∈ encoded.toList, isOrdinary '\'' c) :
    lex (wrap encoded) =
      let n := size encoded.toList
      [⟨.name "local", 0, 5⟩, ⟨.name "CodeString", 6, 16⟩, ⟨.symbol "=", 17, 18⟩,
        ⟨.str encoded, 19, 21 + n⟩, ⟨.name "return", 22 + n, 28 + n⟩,
        ⟨.name "CodeString", 29 + n, 39 + n⟩] := by
  have hpre (y : List Char) : preamble ("local".toList ++ y) = ([], "local".toList ++ y) := by
    have hlocal : "local".toList = ['l', 'o', 'c', 'a', 'l'] := by decide +kernel
    rw [hlocal]
    rfl
  have hspace (y : List Char) : (' ' :: y).head?.all fun c => !isNameCharacter c := by
    simp [isNameCharacter, isNameStart]
  have hquote : isQuote '\'' := by decide
  have hbare (y : List Char) : Bare (('\'' :: (encoded.toList ++ ['\''])) ++ y) :=
    ⟨by simp [isSpace], by simp⟩
  have hlocal : size "local".toList = 5 := by decide +kernel
  have hcode : size "CodeString".toList = 10 := by decide +kernel
  have hreturn : size "return".toList = 6 := by decide +kernel
  have hblank : ' '.utf8Size = 1 := by decide
  have hfeed : '\n'.utf8Size = 1 := by decide
  have hliteral : size ('\'' :: (encoded.toList ++ ['\''])) = size encoded.toList + 2 := by
    have hmark : '\''.utf8Size = 1 := by decide
    simp only [size_cons, size_append, size_nil, hmark]
    omega
  rw [lex, toList_wrap, hpre]
  dsimp only [size_nil]
  rw [lexFrom_name (by decide) (hspace _), lexFrom_cons_space (by decide),
    lexFrom_name (by decide) (hspace _), lexFrom_cons_space (by decide), lexFrom_equals,
    (begins_ordinary hquote h _).lexFrom_append (hbare _), lexFrom_cons_space (by decide),
    lexFrom_name (by decide) (hspace _), lexFrom_cons_space (by decide),
    lexFrom_name (by decide) rfl, lexFrom_eq_nil (by simp)]
  simp only [hlocal, hcode, hreturn, hblank, hfeed, hliteral, String.ofList_toList,
    List.cons.injEq, Token.mk.injEq, true_and, and_true]
  omega

theorem isOrdinary_of_mem_encode {bytes : List UInt8} {c : Char} (h : c ∈ Base64.encode bytes) :
    isOrdinary '\'' c := by
  have hall : ('=' :: Base64.alphabet).all (isOrdinary '\'') := by decide +kernel
  exact List.all_eq_true.mp hall c (List.mem_cons.mpr (Base64.mem_of_mem_encode h))

-- A chunk that returns its one string, which is a bundle in base 64.
def Carries (chunk bundle : String) : Prop :=
  ∃ encoded : String, Base64.decode? encoded.toList = some bundle.toUTF8.toList ∧
    let n := size encoded.toList
    lex chunk =
      [⟨.name "local", 0, 5⟩, ⟨.name "CodeString", 6, 16⟩, ⟨.symbol "=", 17, 18⟩,
        ⟨.str encoded, 19, 21 + n⟩, ⟨.name "return", 22 + n, 28 + n⟩,
        ⟨.name "CodeString", 29 + n, 39 + n⟩]

theorem carries_stringify (bundle : String) : Carries (stringify bundle) bundle := by
  refine ⟨String.ofList (Base64.encode bundle.toUTF8.toList), ?_, lex_wrap fun c hc => ?_⟩
  · rw [String.toList_ofList, Base64.decode?_encode]
  · rw [String.toList_ofList] at hc
    exact isOrdinary_of_mem_encode hc

-- A bundle in base 64 is the one string of its chunk, and is had back from it.
theorem lex_stringify (bundle : String) :
    ∃ encoded : String, Base64.decode? encoded.toList = some bundle.toUTF8.toList ∧
      let n := size encoded.toList
      lex (stringify bundle) =
        [⟨.name "local", 0, 5⟩, ⟨.name "CodeString", 6, 16⟩, ⟨.symbol "=", 17, 18⟩,
          ⟨.str encoded, 19, 21 + n⟩, ⟨.name "return", 22 + n, 28 + n⟩,
          ⟨.name "CodeString", 29 + n, 39 + n⟩] :=
  carries_stringify bundle

end Bundle

end LuaBundle

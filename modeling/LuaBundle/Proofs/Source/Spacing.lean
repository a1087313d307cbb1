import LuaBundle.Proofs.Source.Program
import LuaBundle.Proofs.Source.Replaced

namespace LuaBundle

open Lua Text

-- A source with a text put in at a byte offset.
def insertAt (source : String) (offset : Nat) (text : List Char) : String :=
  let (front, back) := cut offset source.toList
  String.ofList (front ++ (text ++ back))

namespace Lua

variable {source : String} {earlier later : List Token} {t : Token} {w : List Char}

-- White space and the comments behind it move the tokens that they are put in front of.
theorem lex_insertAt (h : lex source = earlier ++ t :: later) (hw : IsTrivia w)
    (hs : w.head?.any isSpace) :
    lex (insertAt source t.start w) = earlier ++ (t :: later).map (Token.shift (size w)) := by
  obtain ⟨before, c, r, stands, ht, -⟩ := exists_standsIn h
  have hstart : t.start = size before := by rw [ht]
  obtain ⟨d, w, rfl⟩ := List.exists_cons_of_ne_nil (l := w) (by rintro rfl; cases hs)
  have hspace : isSpace d := by simpa using hs
  rw [insertAt, hstart, stands.eq, cut_size]
  dsimp only
  rw [stands.exchange (.inr (by simpa using hspace)) (.of_space (by simpa using hspace)),
    hw.lexFrom_append, lexFrom_add, stands.lexFrom_eq h]

end Lua

namespace Requires

variable {source source' : String} {lines lines' : Lines} {before before' : Option Token}
  {tokens tokens' : List Token}

theorem replaced_none (h : tokens'.map Token.kind = tokens.map Token.kind) :
    Replaced (fun _ => false) before tokens tokens' := by
  induction tokens generalizing before tokens' with
  | nil =>
    obtain rfl := List.map_eq_nil_iff.mp h
    exact .nil
  | cons t tokens ih =>
    obtain ⟨t', tokens', rfl, hk, htokens⟩ := List.map_eq_cons_iff.mp h
    exact .keep (fun _ _ _ => rfl) hk (ih htokens)

-- What tokens tell depends on what they say and not on where they stand.
theorem outline?_eq_of_kinds (h : tokens'.map Token.kind = tokens.map Token.kind)
    (hb : Mention.Beside before before') :
    outline? source' lines' before' tokens' = outline? source lines before tokens := by
  have hwithout : without (fun _ => false) = id := by
    funext told
    exact Prod.ext (List.filter_eq_self.mpr fun _ _ => rfl) rfl
  rw [(replaced_none h).outline?_eq source source' lines lines' hb, hwithout, Option.map_id]
  rfl

end Requires

-- White space and comments between tokens are irrelevant: put in front of a token behind a first
-- white space they move that token and those behind it, and a scan fails or says the same.
theorem insert_trivia {source : String} {earlier later : List Token} {t : Token} {w : List Char}
    (h : lex source = earlier ++ t :: later) (hw : IsTrivia w) (hs : w.head?.any isSpace) :
    lex (insertAt source t.start w) = earlier ++ (t :: later).map (Token.shift (size w)) ∧
      (Requires.of (insertAt source t.start w)).toOption.map Requires.outline =
        (Requires.of source).toOption.map Requires.outline := by
  have hlex := lex_insertAt h hw hs
  refine ⟨hlex, Requires.outline?_eq_of_kinds ?_ ⟨rfl, rfl⟩⟩
  rw [hlex, h, List.map_append, List.map_append, List.map_map]
  rfl

-- A tabulator, a long comment that holds the closer of another level, and a short one.
def spacing : List Char :=
  "\t--[=[]]]=]--'\n".toList

theorem isTrivia_spacing : IsTrivia spacing := by
  have hlong : IsComment ('[' :: (longOpener 1 ++ "]]]=]".toList)) :=
    .long (by decide +kernel) (by decide +kernel)
  have hline : IsComment (['\''] ++ ['\n']) := .line (by decide) (by simp)
  exact .space (by decide) (.comment hlong (.comment hline .nil))

-- Behind a value and in front of a call.
theorem insert_trivia_spacing :
    insertAt "f(require)require'a'" 10 spacing = "f(require)\t--[=[]]]=]--'\nrequire'a'" ∧
      lex (insertAt "f(require)require'a'" 10 spacing) =
        [⟨.name "f", 0, 1⟩, ⟨.symbol "(", 1, 2⟩, ⟨.name "require", 2, 9⟩, ⟨.symbol ")", 9, 10⟩] ++
          [⟨.name "require", 10, 17⟩, ⟨.str "a", 17, 20⟩].map (Token.shift (size spacing)) ∧
      (Requires.of (insertAt "f(require)require'a'" 10 spacing)).toOption.map Requires.outline =
        (Requires.of "f(require)require'a'").toOption.map Requires.outline := by
  have hlex : lex "f(require)require'a'" =
      [⟨.name "f", 0, 1⟩, ⟨.symbol "(", 1, 2⟩, ⟨.name "require", 2, 9⟩, ⟨.symbol ")", 9, 10⟩] ++
        ⟨.name "require", 10, 17⟩ :: [⟨.str "a", 17, 20⟩] := by
    decide +kernel
  have hs : spacing.head?.any isSpace := by decide +kernel
  have hinserted := insert_trivia hlex isTrivia_spacing hs
  exact ⟨by decide +kernel, hinserted⟩

end LuaBundle

import LuaBundle.Proofs.Lua.Places
import LuaBundle.Proofs.Lua.Quote
import LuaBundle.Proofs.Source.Mention

namespace LuaBundle

open Lua Text

namespace Lua

variable {n : Nat} {value : String} {text y : List Char}

-- A text that is one string and is closed where it ends.
def IsLiteral (value : String) (text : List Char) : Prop :=
  ∃ c r, text = c :: r ∧ (token c r).value = .str value ∧ (token c r).rest = [] ∧ tokenCloses c r

theorem IsLiteral.head?_cases (h : IsLiteral value text) :
    ∃ c r, text = c :: r ∧ (c = '"' ∨ c = '\'' ∨ c = '[') := by
  obtain ⟨c, r, rfl, hv, -⟩ := h
  refine ⟨c, r, rfl, ?_⟩
  cases lead c r with
  | short hq => exact (isQuote_iff.mp hq).imp_right .inl
  | numeral hq hd => simp [token_numeral hq hd] at hv
  | name hs => simp [token_name hs] at hv
  | long hf hl => exact .inr (.inr hf)
  | symbol hq hd hp hf hb => simp [(token_symbol hq hd hp hf hb).1] at hv

theorem IsLiteral.bare (h : IsLiteral value text) (y : List Char) : Bare (text ++ y) := by
  obtain ⟨c, r, rfl, rfl | rfl | rfl⟩ := h.head?_cases <;> exact ⟨by simp [isSpace], by simp⟩

theorem IsLiteral.head?_append {p : Char → Bool} (h : IsLiteral value text)
    (hp : ['"', '\'', '['].all fun d => !p d) (y : List Char) :
    (text ++ y).head?.all fun d => !p d := by
  obtain ⟨c, r, rfl, hc⟩ := h.head?_cases
  exact List.all_eq_true.mp hp c (by simpa using hc)

-- Whatever follows it, such a text is read as that string.
theorem IsLiteral.lexFrom_append (h : IsLiteral value text) (n : Nat) (y : List Char) :
    lexFrom n (text ++ y) = ⟨.str value, n, n + size text⟩ :: lexFrom (n + size text) y := by
  have hb := h.bare y
  refine Begins.lexFrom_append ?_ hb n
  obtain ⟨c, r, rfl, hv, hr, hc⟩ := h
  have ht := token_splits c r
  rw [Reading.Splits, hr, List.append_nil] at ht
  obtain ⟨htoken, hcloses⟩ := token_append_of_closes hv hc y
  rw [ht, List.tail_cons] at htoken hcloses
  rw [List.cons_append] at hb ⊢
  exact .of_bare hb (by rw [htoken, hv]) (by rw [htoken]) (hcloses.trans hc)

theorem lexFrom_loneSymbol {c : Char} (hc : isLoneSymbol c) (n : Nat) (y : List Char) :
    lexFrom n (c :: y) =
      ⟨.symbol (String.singleton c), n, n + c.utf8Size⟩ :: lexFrom (n + c.utf8Size) y := by
  have hb : Bare ([c] ++ y) := by
    have hc : c = '(' ∨ c = ')' ∨ c = ',' := by simpa [isLoneSymbol, or_assoc] using hc
    rcases hc with rfl | rfl | rfl <;> exact ⟨by simp [isSpace], by simp⟩
  exact Begins.lexFrom_append (begins_loneSymbol hc) hb n

theorem lexFrom_dots (hy : y.head?.all fun d => !(d == '.')) (n : Nat) :
    lexFrom n ('.' :: '.' :: y) = ⟨.symbol "..", n, n + 2⟩ :: lexFrom (n + 2) y := by
  have hs : symbolTail '.' ('.' :: y) = ['.'] := by
    cases y with
    | nil => rfl
    | cons d y =>
      have hd : d ≠ '.' := by simpa using hy
      simp [symbolTail, hd, symbolPairs]
  obtain ⟨ht, hc⟩ := @token_symbol '.' ('.' :: y) (by decide) (by decide) (fun _ => rfl)
    (by decide) (by simp)
  rw [hs] at ht
  have hb : Bare (['.', '.'] ++ y) := ⟨by simp [isSpace], by simp⟩
  have hdots : Begins ('.' :: '.' :: y) (.symbol "..") y :=
    .of_bare hb (by rw [ht]) (by rw [ht]; rfl) hc
  exact Begins.lexFrom_append hdots hb n

-- What begins neither white space nor a comment also does not lead what stands behind them.
theorem IsTrivia.head?_append {p : Char → Bool} {gap : List Char} (h : IsTrivia gap)
    (hs : [' ', '\t', '\n', '\x0b', '\x0c', '\r'].all fun d => !p d) (hd : p '-' = false)
    (hy : y.head?.all fun d => !p d) : (gap ++ y).head?.all fun d => !p d := by
  cases h with
  | nil => exact hy
  | space hc _ => simp [eq_false_of_isSpace hs hc]
  | comment => simp [hd]

end Lua

-- Literals that are joined by `..` and ended by a `)`, with white space and comments between them,
-- and the text that they make up together.
inductive Joined : String → List Char → Prop
  | last {part : String} {text gap : List Char} (hp : IsLiteral part text) (hg : IsTrivia gap) :
      Joined part (text ++ (gap ++ [')']))
  | joined {part more : String} {text gap gap' rest : List Char} (hp : IsLiteral part text)
      (hg : IsTrivia gap) (hg' : IsTrivia gap') (hm : Joined more rest) :
      Joined (part ++ more) (text ++ (gap ++ ('.' :: '.' :: (gap' ++ rest))))

-- A static call, from its `require` to the end of its string or its `)`, with its literal. It is
-- closed where it ends, whatever follows.
inductive CallText (literal : String) : List Char → Prop
  | string {text gap : List Char} (hg : IsTrivia gap) (hl : IsLiteral literal text) :
      CallText literal ("require".toList ++ (gap ++ text))
  | parenthesized {text gap gap' : List Char} (hg : IsTrivia gap) (hg' : IsTrivia gap')
      (hj : Joined literal text) :
      CallText literal ("require".toList ++ (gap ++ '(' :: (gap' ++ text)))

section Lex

variable {literal : String} {text y : List Char}

theorem Joined.head?_append {p : Char → Bool} (h : Joined literal text)
    (hp : ['"', '\'', '['].all fun d => !p d) (y : List Char) :
    (text ++ y).head?.all fun d => !p d := by
  cases h with
  | last hl _ => rw [List.append_assoc]; exact hl.head?_append hp _
  | joined hl _ _ _ => rw [List.append_assoc]; exact hl.head?_append hp _

theorem Joined.lexFrom_append (h : Joined literal text) (n : Nat) (y : List Char) :
    ∃ inner last, lexFrom n (text ++ y) = inner ++ last :: lexFrom (n + size text) y ∧
      Mention.Parts (lexFrom n (text ++ y)) literal (n + size text) ∧
      ∀ u ∈ inner ++ [last], Mention.IsArgument u := by
  induction h generalizing n with
  | @last part text gap hp hg =>
    have hsize : n + size (text ++ (gap ++ [')'])) = n + size text + size gap + 1 := by
      have hclose : ')'.utf8Size = 1 := rfl
      simp only [size_append, size_cons, size_nil, hclose, Nat.add_assoc, Nat.add_zero]
    have hlex : lexFrom n (text ++ (gap ++ [')']) ++ y) =
        ⟨.str part, n, n + size text⟩ ::
          ⟨.symbol ")", n + size text + size gap, n + size text + size gap + 1⟩ ::
            lexFrom (n + size text + size gap + 1) y := by
      rw [List.append_assoc, List.append_assoc, hp.lexFrom_append, hg.lexFrom_append,
        List.singleton_append, lexFrom_loneSymbol (by decide)]
      rfl
    rw [hlex, hsize]
    exact ⟨[_], _, rfl, .last rfl, by simp [Mention.IsArgument]⟩
  | @joined part more text gap gap' rest hp hg hg' hm ih =>
    have hsize : n + size (text ++ (gap ++ '.' :: '.' :: (gap' ++ rest))) =
        n + size text + size gap + 2 + size gap' + size rest := by
      have hdot : '.'.utf8Size = 1 := rfl
      simp only [size_append, size_cons, hdot]
      omega
    have hlex : lexFrom n (text ++ (gap ++ '.' :: '.' :: (gap' ++ rest)) ++ y) =
        ⟨.str part, n, n + size text⟩ ::
          ⟨.symbol "..", n + size text + size gap, n + size text + size gap + 2⟩ ::
            lexFrom (n + size text + size gap + 2 + size gap') (rest ++ y) := by
      have hdot : (gap' ++ (rest ++ y)).head?.all fun d => !(d == '.') :=
        hg'.head?_append (by decide) rfl (hm.head?_append (by decide) y)
      rw [List.append_assoc, List.append_assoc, hp.lexFrom_append, hg.lexFrom_append,
        List.cons_append, List.cons_append, List.append_assoc, lexFrom_dots hdot,
        hg'.lexFrom_append]
    obtain ⟨inner, last, heq, hparts, hi⟩ := ih (n + size text + size gap + 2 + size gap')
    rw [hlex, hsize]
    exact ⟨_ :: _ :: inner, last, by rw [heq]; rfl, .joined rfl hparts,
      by simpa [Mention.IsArgument] using hi⟩

theorem lexFrom_require (hy : y.head?.all fun d => !isNameCharacter d) (n : Nat) :
    lexFrom n ("require".toList ++ y) =
      ⟨.name "require", n, n + size "require".toList⟩ :: lexFrom (n + size "require".toList) y :=
  lexFrom_name (by decide) hy n

-- Such a text is read as a static call with its literal, and what follows it is read as if it
-- stood alone.
theorem CallText.lexFrom_append (h : CallText literal text) (n : Nat) (y : List Char) :
    ∃ t inner last, lexFrom n (text ++ y) = t :: (inner ++ last :: lexFrom (n + size text) y) ∧
      t.kind = .name "require" ∧ t.start = n ∧
      Mention.Static (inner ++ last :: lexFrom (n + size text) y) literal (n + size text) ∧
      ∀ u ∈ inner ++ [last], Mention.IsArgument u := by
  have hq : ['"', '\'', '['].all fun d => !isNameCharacter d := by decide
  have hs : [' ', '\t', '\n', '\x0b', '\x0c', '\r'].all fun d => !isNameCharacter d := by decide
  cases h with
  | @string text gap hg hl =>
    have hy : (gap ++ (text ++ y)).head?.all fun d => !isNameCharacter d :=
      hg.head?_append hs rfl (hl.head?_append hq y)
    rw [List.append_assoc, List.append_assoc, lexFrom_require hy, hg.lexFrom_append,
      hl.lexFrom_append, size_append, size_append, ← Nat.add_assoc, ← Nat.add_assoc]
    exact ⟨_, [], _, rfl, rfl, rfl, .string, by simp [Mention.IsArgument]⟩
  | @parenthesized text gap gap' hg hg' hj =>
    have hy : (gap ++ '(' :: (gap' ++ (text ++ y))).head?.all fun d => !isNameCharacter d :=
      hg.head?_append hs rfl rfl
    have hsize : n + size ("require".toList ++ (gap ++ '(' :: (gap' ++ text))) =
        n + size "require".toList + size gap + '('.utf8Size + size gap' + size text := by
      simp only [size_append, size_cons, Nat.add_assoc]
    obtain ⟨inner, last, heq, hparts, hi⟩ :=
      hj.lexFrom_append (n + size "require".toList + size gap + '('.utf8Size + size gap') y
    rw [List.append_assoc, List.append_assoc, List.cons_append, List.append_assoc,
      lexFrom_require hy, hg.lexFrom_append, lexFrom_loneSymbol (by decide), hg'.lexFrom_append,
      hsize, heq]
    rw [heq] at hparts
    exact ⟨_, _ :: inner, last, rfl, rfl, rfl, .parenthesized rfl hparts,
      by simpa [Mention.IsArgument] using hi⟩

theorem CallText.head?_eq (h : CallText literal text) : text.head? = some 'r' := by
  cases h <;> rfl

end Lex

end LuaBundle

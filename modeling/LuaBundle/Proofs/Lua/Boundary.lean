import Mathlib.Data.List.TakeWhile
import LuaBundle.Lua.Lex
import LuaBundle.Proofs.Lua.Trivia
import LuaBundle.Proofs.Lua.ShortLiteral

namespace LuaBundle.Lua

def isQuote (c : Char) : Bool :=
  c = '"' || c = '\''

theorem isQuote_iff {c : Char} : isQuote c ↔ c = '"' ∨ c = '\'' := by
  simp [isQuote]

-- Letters and the underscore: they join numerals and names alike, and nothing else.
def isWord (c : Char) : Bool :=
  c.isAlpha || c = '_'

theorem isAlpha_iff_toNat {c : Char} :
    c.isAlpha ↔ 65 ≤ c.toNat ∧ c.toNat ≤ 90 ∨ 97 ≤ c.toNat ∧ c.toNat ≤ 122 := by
  have hu : c.isUpper = decide (65 ≤ c.val ∧ c.val ≤ 90) := rfl
  have hl : c.isLower = (decide (97 ≤ c.val) && decide (c.val ≤ 122)) := rfl
  have ha : c.isAlpha = (c.isUpper || c.isLower) := rfl
  simp [ha, hu, hl, UInt32.le_iff_toNat_le]

theorem isDigit_of_isNameStart {c : Char} (h : isNameStart c) : c.isDigit = false := by
  by_contra hd
  rw [Bool.not_eq_false, Char.isDigit_iff_toNat] at hd
  simp only [isNameStart, Bool.or_eq_true, isAlpha_iff_toNat, decide_eq_true_eq] at h
  rcases h with (h | rfl) | h
  case inl.inl => simp at hd; omega
  case inl.inr => exact absurd hd (by decide)
  case inr => simp at hd; omega

-- What begins a token of each form.
inductive Lead (first : Char) (s : List Char) : Prop
  | short (h : isQuote first)
  | numeral (hq : isQuote first = false) (h : first.isDigit ∨ (first = '.' ∧ startsWithDigit s))
  | name (h : isNameStart first)
  | long {level : Nat} {inside : List Char} (hf : first = '[')
      (h : longLevel? s = some (level, inside))
  | symbol (hq : isQuote first = false) (hd : first.isDigit = false)
      (hp : first = '.' → startsWithDigit s = false) (hn : isNameStart first = false)
      (hb : first = '[' → longLevel? s = none)

theorem lead (first : Char) (s : List Char) : Lead first s := by
  by_cases hq : isQuote first
  case pos => exact .short hq
  by_cases hd : first.isDigit ∨ (first = '.' ∧ startsWithDigit s)
  case pos => exact .numeral (by simpa using hq) hd
  by_cases hn : isNameStart first
  case pos => exact .name hn
  cases hb : if first = '[' then longLevel? s else none with
  | some p =>
    obtain ⟨level, inside⟩ := p
    split at hb
    case isTrue hf => exact .long hf hb
    case isFalse => cases hb
  | none =>
    refine .symbol (by simpa using hq) (by simp_all) (fun hf => by simp_all) (by simpa using hn) ?_
    intro hf
    simpa [hf] using hb

-- Whether the token that begins with `first` is closed where it ends: names, numerals and symbols
-- always are, strings have to have their closing quote or bracket.
def tokenCloses (first : Char) (s : List Char) : Bool :=
  if isQuote first then shortCloses first s
  else
    match if first = '[' then longLevel? s else none with
    | some (level, inside) => longCloses level inside
    | none => true

section Forms

variable {first : Char} {s inside : List Char} {level : Nat}

theorem token_short (h : isQuote first) :
    token first s =
      ⟨first :: (shortBody first s).text,
        .str (String.ofList (Text.decodeLossy (shortBody first s).value)),
        (shortBody first s).rest⟩ := by
  simp only [token, if_pos (isQuote_iff.mp h)]

theorem tokenCloses_short (h : isQuote first) : tokenCloses first s = shortCloses first s := by
  simp only [tokenCloses, if_pos h]

theorem not_quote (h : isQuote first = false) : ¬ (first = '"' ∨ first = '\'') :=
  mt isQuote_iff.mpr (by simp [h])

theorem token_numeral (hq : isQuote first = false)
    (h : first.isDigit ∨ (first = '.' ∧ startsWithDigit s)) :
    token first s =
      ⟨first :: numeralTail first s, .number, s.drop (numeralTail first s).length⟩ := by
  simp only [token, if_neg (not_quote hq), if_pos h]

theorem tokenCloses_of_ne (hq : isQuote first = false) (h : first ≠ '[') : tokenCloses first s := by
  simp only [tokenCloses, hq, h, if_false]
  rfl

theorem tokenCloses_numeral (hq : isQuote first = false)
    (h : first.isDigit ∨ (first = '.' ∧ startsWithDigit s)) : tokenCloses first s := by
  refine tokenCloses_of_ne hq ?_
  rintro rfl
  simp [Char.isDigit] at h

theorem isQuote_of_isNameStart (h : isNameStart first) : isQuote first = false := by
  by_contra hq
  rw [Bool.not_eq_false] at hq
  obtain rfl | rfl := isQuote_iff.mp hq
  all_goals exact absurd h (by decide)

theorem not_numeral (h : isNameStart first) :
    ¬ (first.isDigit ∨ (first = '.' ∧ startsWithDigit s)) := by
  rw [isDigit_of_isNameStart h]
  rintro (hd | ⟨rfl, -⟩)
  case inl => cases hd
  case inr => exact absurd h (by decide)

theorem token_name (h : isNameStart first) :
    token first s =
      ⟨first :: s.takeWhile isNameCharacter,
        .name (String.ofList (first :: s.takeWhile isNameCharacter)),
        s.dropWhile isNameCharacter⟩ := by
  simp only [token, if_neg (not_quote (isQuote_of_isNameStart h)), if_neg (not_numeral h), if_pos h]

theorem tokenCloses_name (h : isNameStart first) : tokenCloses first s := by
  refine tokenCloses_of_ne (isQuote_of_isNameStart h) ?_
  rintro rfl
  exact absurd h (by decide)

theorem token_long (h : longLevel? s = some (level, inside)) :
    token '[' s =
      ⟨'[' :: (longOpener level ++ (longBody level inside).text),
        .str (String.ofList (longBody level inside).value), (longBody level inside).rest⟩ := by
  have hn : isNameStart '[' = false := by decide
  simp [token, h, hn]

theorem tokenCloses_long (h : longLevel? s = some (level, inside)) :
    tokenCloses '[' s = longCloses level inside := by
  have hq : isQuote '[' = false := by decide
  simp only [tokenCloses, hq, h, if_true]
  rfl

theorem token_symbol (hq : isQuote first = false) (hd : first.isDigit = false)
    (hp : first = '.' → startsWithDigit s = false) (hn : isNameStart first = false)
    (hb : first = '[' → longLevel? s = none) :
    token first s =
        ⟨first :: symbolTail first s, .symbol (String.ofList (first :: symbolTail first s)),
          s.drop (symbolTail first s).length⟩ ∧
      tokenCloses first s := by
  have hd' : ¬ (first.isDigit ∨ (first = '.' ∧ startsWithDigit s)) := by
    simp only [hd, not_or, not_and]
    exact ⟨by simp, fun hf => by simp [hp hf]⟩
  have hb' : (if first = '[' then longLevel? s else none) = none := by
    split
    case isTrue hf => exact hb hf
    case isFalse => rfl
  simp only [token, tokenCloses, if_neg (not_quote hq), if_neg hd', hq, hn, hb']
  exact ⟨rfl, rfl⟩

end Forms

-- `y` may stand in the place of `x` behind a token: its first character joins the token only where
-- that of `x` does, and a `[` in front of it opens a long bracket only where it does so for `x`.
structure Neutral (x y : List Char) : Prop where
  head : y.head? = x.head? ∨ (y.head?.all isSpace) ∨ (x.head?.any isWord ∧ y.head?.any isWord)
  bracket : (longLevel? y).isSome → (longLevel? x).isSome

namespace Neutral

variable {x y : List Char}

theorem rfl : Neutral x x :=
  ⟨.inl (Eq.refl _), id⟩

theorem prepend (h : Neutral x y) (p : List Char) : Neutral (p ++ x) (p ++ y) := by
  refine ⟨?_, longLevel?_isSome_append p h.bracket⟩
  cases p with
  | nil => exact h.head
  | cons c p => exact .inl (Eq.refl _)

theorem of_space (h : y.head?.all isSpace) : Neutral x y := by
  refine ⟨.inr (.inl h), fun hl => ?_⟩
  cases y with
  | nil => simp [longLevel?] at hl
  | cons c y =>
    have hc : isSpace c := by simpa using h
    have h₁ : c ≠ '[' := by rintro ⟨⟩; simp [isSpace] at hc
    have h₂ : c ≠ '=' := by rintro ⟨⟩; simp [isSpace] at hc
    simp [longLevel?, h₁, h₂] at hl

-- A class of characters that holds no white space and either all letters or none.
structure Class (p : Char → Bool) : Prop where
  space : ∀ c, isSpace c → p c = false
  word : ∀ c d, isWord c → isWord d → p d → p c

theorem head?_any {p : Char → Bool} (h : Neutral x y) (hp : Class p) (hx : x.head?.any p = false) :
    y.head?.any p = false := by
  rcases h.head with h | h | ⟨h₁, h₂⟩
  case inl => rwa [h]
  case inr.inl =>
    cases y with
    | nil => simp
    | cons d y => simpa using hp.space d (by simpa using h)
  case inr.inr =>
    cases x with
    | nil => simp at h₁
    | cons c x =>
      cases y with
      | nil => simp at h₂
      | cons d y =>
        have h₁ : isWord c := by simpa using h₁
        have h₂ : isWord d := by simpa using h₂
        simp only [List.head?_cons, Option.any_some] at hx ⊢
        by_contra hd
        rw [Bool.not_eq_false] at hd
        simp [hp.word c d h₁ h₂ hd] at hx

end Neutral

theorem eq_false_of_isSpace {p : Char → Bool} {c : Char}
    (h : [' ', '\t', '\n', '\x0b', '\x0c', '\r'].all fun d => !p d) (hc : isSpace c) :
    p c = false := by
  have hmem : c ∈ [' ', '\t', '\n', '\x0b', '\x0c', '\r'] := by
    simpa [isSpace, or_assoc] using hc
  simpa using List.all_eq_true.mp h c hmem

theorem isWord_iff {c : Char} : isWord c ↔ c.isAlpha ∨ c = '_' := by
  simp [isWord]

theorem isNameStart_of_isWord {c : Char} (h : isWord c) : isNameStart c := by
  rcases isWord_iff.mp h with h | rfl
  case inl => simp [isNameStart, h]
  case inr => decide

section Classes

open Neutral

theorem class_isNameCharacter : Class isNameCharacter where
  space c hc := eq_false_of_isSpace (by decide) hc
  word c d hc _ _ := by
    rcases isWord_iff.mp hc with hc | rfl
    case inl => simp [isNameCharacter, isNameStart, hc]
    case inr => decide

theorem class_numeral (last : Char) :
    Class fun c => isNumeralCharacter c || (isSign c && isExponentMark last) where
  space c hc := by
    have hn : isNumeralCharacter c = false := eq_false_of_isSpace (by decide) hc
    have hs : isSign c = false := eq_false_of_isSpace (by decide) hc
    simp [hn, hs]
  word c d hc _ _ := by
    rcases isWord_iff.mp hc with hc | rfl
    case inl => simp [isNumeralCharacter, Char.isAlphanum, hc]
    case inr => simp [isNumeralCharacter]

theorem class_isDigit : Class Char.isDigit where
  space c hc := eq_false_of_isSpace (by decide) hc
  word c d _ hd h := by
    simp [isDigit_of_isNameStart (isNameStart_of_isWord hd)] at h

-- A character that is neither white space nor a letter.
theorem class_eq {m : Char} (hs : isSpace m = false) (hw : isWord m = false) :
    Class (· = m) where
  space c hc := by
    simp only [decide_eq_false_iff_not]
    rintro rfl
    simp [hs] at hc
  word c d _ hd h := by
    obtain rfl : d = m := by simpa using h
    simp [hw] at hd

theorem class_symbolPairs (first : Char) : Class fun c => decide ([first, c] ∈ symbolPairs) where
  space c hc := eq_false_of_isSpace (p := fun c => decide ([first, c] ∈ symbolPairs))
    (by simp [symbolPairs]) hc
  word c d _ hd h := by
    have h : [first, d] ∈ symbolPairs := by simpa using h
    simp only [symbolPairs, List.map_cons, List.map_nil, List.mem_cons, List.not_mem_nil] at h
    simp at h
    rcases h with h | h | h | h | h | h | h | h | h
    all_goals
      obtain ⟨-, rfl⟩ := h
      exact absurd hd (by decide)

end Classes

theorem head?_all_not {p : Char → Bool} {s : List Char} (h : s.head?.any p = false) :
    s.head?.all fun c => !p c := by
  cases s with
  | nil => rfl
  | cons c s => simpa using h

theorem head?_dropWhile_any (p : Char → Bool) (s : List Char) :
    (s.dropWhile p).head?.any p = false := by
  have := head?_dropWhile_all p s
  cases hd : s.dropWhile p with
  | nil => rfl
  | cons c r => simpa [hd] using this

section Tails

variable {first last : Char} {s x y : List Char}

theorem Neutral.numeralTail_eq_nil (h : Neutral x y) (hn : numeralTail last x = []) :
    numeralTail last y = [] := by
  have hx : x.head?.any (fun c => isNumeralCharacter c || (isSign c && isExponentMark last))
      = false := by
    cases x with
    | nil => rfl
    | cons c x =>
      rw [numeralTail] at hn
      split at hn
      case isTrue => cases hn
      case isFalse hc => simpa using hc
  have hy := h.head?_any (class_numeral last) hx
  cases y with
  | nil => rfl
  | cons c y =>
    rw [numeralTail, if_neg]
    simpa using hy

theorem numeralTail_append (h : Neutral (s.drop (numeralTail last s).length) y) :
    numeralTail last (numeralTail last s ++ y) = numeralTail last s := by
  induction s generalizing last with
  | nil => exact h.numeralTail_eq_nil rfl
  | cons c r ih =>
    by_cases hc : isNumeralCharacter c || (isSign c && isExponentMark last)
    case pos =>
      have ht : numeralTail last (c :: r) = c :: numeralTail c r := by rw [numeralTail, if_pos hc]
      rw [ht] at h ⊢
      rw [List.cons_append, numeralTail, if_pos hc, ih h]
    case neg =>
      have ht : numeralTail last (c :: r) = [] := by rw [numeralTail, if_neg hc]
      rw [ht] at h ⊢
      exact h.numeralTail_eq_nil ht

theorem Neutral.head?_ne_dot (h : Neutral x y) (hx : x.head? ≠ some '.') : y.head? ≠ some '.' := by
  have hc : Neutral.Class (· = '.') := class_eq (by decide) (by decide)
  have hx : x.head?.any (· = '.') = false := by cases x <;> simp_all
  have hy := h.head?_any hc hx
  cases y <;> simp_all

theorem Neutral.symbolTail_eq_nil (h : Neutral x y) (hp : first :: x.take 1 ∉ symbolPairs) :
    symbolTail first y = [] := by
  have hx : x.head?.any (fun c => decide ([first, c] ∈ symbolPairs)) = false := by
    cases x <;> simp_all
  have hy := h.head?_any (class_symbolPairs first) hx
  have hdots : ¬ (first = '.' ∧ y.take 2 = ['.', '.']) := by
    rintro ⟨rfl, ht⟩
    have hdot : x.head? ≠ some '.' := by
      intro hdot
      obtain ⟨r, rfl⟩ := List.head?_eq_some_iff.mp hdot
      exact hp (by simp [symbolPairs])
    have := h.head?_ne_dot hdot
    cases y <;> simp_all
  have hpair : first :: y.take 1 ∉ symbolPairs := by
    cases y with
    | nil => simp [symbolPairs]
    | cons d y => simpa using hy
  rw [symbolTail, if_neg hdots, if_neg hpair]

theorem symbolTail_append (h : Neutral (s.drop (symbolTail first s).length) y) :
    symbolTail first (symbolTail first s ++ y) = symbolTail first s := by
  fun_cases symbolTail first s
  case case1 hd =>
    simp only [symbolTail, hd, if_true, List.cons_append, List.nil_append, List.take_succ_cons,
      List.take_zero, and_self]
  case case2 hd hp =>
    obtain ⟨d, r, rfl⟩ : ∃ d r, s = d :: r := by
      cases s with
      | nil => simp [symbolPairs] at hp
      | cons d r => exact ⟨d, r, rfl⟩
    rw [symbolTail, if_neg hd, if_pos hp] at h
    simp only [List.take_succ_cons, List.take_zero, List.cons_append, List.nil_append] at hp h ⊢
    have hd' : ¬ (first = '.' ∧ (d :: y).take 2 = ['.', '.']) := by
      rintro ⟨rfl, ht⟩
      have hr : r.head? ≠ some '.' := by
        intro hr
        cases r <;> simp_all
      have := h.head?_ne_dot hr
      cases y <;> simp_all
    rw [symbolTail, if_neg hd', if_pos (by simpa using hp)]
    rfl
  case case3 hd hp =>
    rw [symbolTail, if_neg hd, if_neg hp] at h
    exact h.symbolTail_eq_nil hp

theorem startsWithDigit_numeralTail_append (h : startsWithDigit s) (y : List Char) :
    startsWithDigit (numeralTail first s ++ y) := by
  cases s with
  | nil => simp [startsWithDigit] at h
  | cons d r =>
    have hd : d.isDigit := by simpa [startsWithDigit] using h
    have hc : isNumeralCharacter d := by simp [isNumeralCharacter, Char.isAlphanum, hd]
    simp [numeralTail, hc, startsWithDigit, hd]

theorem startsWithDigit_symbolTail_append (hd : startsWithDigit s = false)
    (hn : Neutral (s.drop (symbolTail first s).length) y) :
    startsWithDigit (symbolTail first s ++ y) = false := by
  cases hst : symbolTail first s with
  | nil =>
    rw [hst] at hn
    exact hn.head?_any class_isDigit hd
  | cons c r =>
    obtain ⟨r', hr'⟩ := symbolTail_isPrefix first s
    rw [hst] at hr'
    simpa [← hr', startsWithDigit] using hd

-- No symbol continues a `[`.
theorem symbolTail_bracket (s : List Char) : symbolTail '[' s = [] := by
  unfold symbolTail
  rw [if_neg (by simp), if_neg]
  cases s <;> simp [symbolPairs]

theorem longLevel?_symbolTail_append (hl : longLevel? s = none)
    (hn : Neutral (s.drop (symbolTail '[' s).length) y) :
    longLevel? (symbolTail '[' s ++ y) = none := by
  rw [symbolTail_bracket] at hn ⊢
  have := hn.bracket
  simpa [hl] using this

end Tails

section Closed

variable {first : Char} {s y : List Char}

theorem token_append_short (hq : isQuote first)
    (h : shortCloses first s ∨ y.head? = (shortBody first s).rest.head?) :
    token first ((token first s).text.tail ++ y) = { token first s with rest := y } ∧
      tokenCloses first ((token first s).text.tail ++ y) = tokenCloses first s := by
  obtain ⟨hbody, hcloses⟩ := shortBody_append h
  simp only [token_short hq, tokenCloses_short hq, List.tail_cons, hbody, hcloses, and_self]

theorem token_append_long {level : Nat} {inside : List Char}
    (hl : longLevel? s = some (level, inside))
    (h : longCloses level inside ∨ y.head? = (longBody level inside).rest.head?) :
    token '[' ((token '[' s).text.tail ++ y) = { token '[' s with rest := y } ∧
      tokenCloses '[' ((token '[' s).text.tail ++ y) = tokenCloses '[' s := by
  rw [token_long hl, tokenCloses_long hl]
  have hl' (s : List Char) : longLevel? (longOpener level ++ s) = some (level, s) :=
    longLevel?_opener_append ..
  dsimp only [List.tail_cons]
  rw [List.append_assoc, token_long (hl' _), tokenCloses_long (hl' _)]
  by_cases hc : longCloses level inside
  case pos => simp only [longBody_append hc, longCloses_append hc, hc, and_self]
  case neg =>
    rw [Bool.not_eq_true] at hc
    have hr := longBody_rest_eq_nil hc
    obtain rfl : y = [] := by simpa [hc, hr] using h
    have hs := longBody_splits level inside
    rw [Reading.Splits, hr] at hs
    simp only [hs, hr, and_self]

-- A string that is closed reads the same whatever follows.
theorem token_append_of_closes {value : String} (hv : (token first s).value = .str value)
    (h : tokenCloses first s) (y : List Char) :
    token first ((token first s).text.tail ++ y) = { token first s with rest := y } ∧
      tokenCloses first ((token first s).text.tail ++ y) = tokenCloses first s := by
  cases lead first s with
  | short hq =>
    rw [tokenCloses_short hq] at h
    exact token_append_short hq (.inl h)
  | numeral hq hd => simp [token_numeral hq hd] at hv
  | name hs => simp [token_name hs] at hv
  | long hf hl =>
    subst hf
    rw [tokenCloses_long hl] at h
    exact token_append_long hl (.inl h)
  | symbol hq hd hp hf hb => simp [(token_symbol hq hd hp hf hb).1] at hv

end Closed

-- A token reads the same in front of every text that may stand in the place of the rest.
theorem token_append {first : Char} {s y : List Char} (hn : Neutral (token first s).rest y)
    (h : tokenCloses first s ∨ y.head? = (token first s).rest.head?) :
    token first ((token first s).text.tail ++ y) = { token first s with rest := y } ∧
      tokenCloses first ((token first s).text.tail ++ y) = tokenCloses first s := by
  cases lead first s with
  | short hq =>
    rw [token_short hq, tokenCloses_short hq] at h
    exact token_append_short hq h
  | numeral hq hd =>
    rw [token_numeral hq hd] at hn ⊢
    have ht := numeralTail_append hn
    have hd' : first.isDigit ∨ (first = '.' ∧ startsWithDigit (numeralTail first s ++ y)) :=
      hd.imp_right fun ⟨hf, hs⟩ => ⟨hf, startsWithDigit_numeralTail_append hs y⟩
    simp only [List.tail_cons, token_numeral hq hd', ht, List.drop_left,
      tokenCloses_numeral hq hd, tokenCloses_numeral hq hd', and_self]
  | name hs =>
    rw [token_name hs] at hn ⊢
    have hy := head?_all_not (hn.head?_any class_isNameCharacter
      (head?_dropWhile_any isNameCharacter s))
    have ht : ∀ c ∈ s.takeWhile isNameCharacter, isNameCharacter c :=
      fun _ => List.mem_takeWhile_imp
    simp only [List.tail_cons, token_name hs, takeWhile_append_of_head? ht hy,
      dropWhile_append_of_head? ht hy, tokenCloses_name hs, and_self]
  | long hf hl =>
    subst hf
    rw [token_long hl, tokenCloses_long hl] at h
    exact token_append_long hl h
  | symbol hq hd hp hf hb =>
    obtain ⟨ht, hc⟩ := token_symbol hq hd hp hf hb
    rw [ht] at hn ⊢
    have hs := symbolTail_append hn
    have hp' : first = '.' → startsWithDigit (symbolTail first s ++ y) = false :=
      fun hf => startsWithDigit_symbolTail_append (hp hf) hn
    have hb' : first = '[' → longLevel? (symbolTail first s ++ y) = none := by
      rintro rfl
      exact longLevel?_symbolTail_append (hb rfl) hn
    obtain ⟨ht', hc'⟩ := token_symbol (s := symbolTail first s ++ y) hq hd hp' hf hb'
    rw [List.tail_cons, ht', hs, hc, hc', List.drop_left]
    exact ⟨rfl, rfl⟩

section Ending

variable {first quote : Char} {s : List Char}

theorem head?_shortBody_rest (h : shortCloses quote s = false) :
    (shortBody quote s).rest.head?.all isLineBreak := by
  fun_induction shortBody quote s with
  | case1 => rfl
  | case2 s plain r hd => simp [shortCloses_eq_of_dropWhile_cons hd] at h
  | case3 s plain r piece more hd hq ih =>
    rw [shortCloses_eq_of_dropWhile_cons hd] at h
    exact ih (by simpa [hq] using h)
  | case4 s plain c r hd hq hb =>
    have := not_ordinary_of_dropWhile hd
    simpa [isOrdinary, hq, hb] using this

theorem getLast?_shortBody_text (h : shortCloses quote s) :
    (shortBody quote s).text.getLast? = some quote := by
  fun_induction shortBody quote s with
  | case1 s plain hd => simp [shortCloses_eq_of_dropWhile_nil hd] at h
  | case2 => simp
  | case3 s plain r piece more hd hq ih =>
    rw [shortCloses_eq_of_dropWhile_cons hd] at h
    have hm := ih (by simpa [hq] using h)
    rw [← List.cons_append, ← List.append_assoc, List.getLast?_append, hm]
    rfl
  | case4 s plain c r hd hq hb =>
    rw [shortCloses_eq_of_dropWhile_cons hd] at h
    simp [hq, hb] at h

theorem ne_line_feed_of_mem_numeralTail {last c : Char} (h : c ∈ numeralTail last s) :
    c ≠ '\n' := by
  induction s generalizing last with
  | nil => simp [numeralTail] at h
  | cons d r ih =>
    rw [numeralTail] at h
    split at h
    case isTrue hd =>
      rcases List.mem_cons.mp h with rfl | h
      case inl =>
        rintro rfl
        have hn : isNumeralCharacter '\n' = false := by decide
        have hs : isSign '\n' = false := by decide
        simp [hn, hs] at hd
      case inr => exact ih h
    case isFalse => cases h

theorem ne_line_feed_of_mem_symbolTail {c : Char} (h : c ∈ symbolTail first s) : c ≠ '\n' := by
  rintro rfl
  revert h
  fun_cases symbolTail first s
  case case1 hd => simp [hd.2]
  case case2 hd hp =>
    intro h
    cases s with
    | nil => cases h
    | cons d r =>
      obtain rfl : '\n' = d := by simpa using h
      simp [symbolPairs] at hp
  case case3 => exact List.not_mem_nil

-- A token that is open where it ends stops in front of a line break or at the end of the text.
theorem head?_token_rest (h : tokenCloses first s = false) :
    (token first s).rest.head?.all isLineBreak := by
  cases lead first s with
  | short hq =>
    rw [tokenCloses_short hq] at h
    simpa only [token_short hq] using head?_shortBody_rest h
  | numeral hq hd => simp [tokenCloses_numeral hq hd] at h
  | name hs => simp [tokenCloses_name hs] at h
  | long hf hl =>
    subst hf
    rw [tokenCloses_long hl] at h
    simp [token_long hl, longBody_rest_eq_nil h]
  | symbol hq hd hp hf hb => simp [(token_symbol hq hd hp hf hb).2] at h

-- A token that is closed where it ends does not end with a line feed.
theorem getLast?_token_text (hf : isSpace first = false) (h : tokenCloses first s) :
    (token first s).text.getLast? ≠ some '\n' := by
  have of_mem {tail : List Char} (ht : ∀ c ∈ tail, c ≠ '\n') :
      (first :: tail).getLast? ≠ some '\n' := by
    intro hl
    rcases List.mem_cons.mp (List.mem_of_getLast? hl) with rfl | hm
    case inl => exact absurd hf (by decide)
    case inr => exact ht _ hm rfl
  cases lead first s with
  | short hq =>
    rw [tokenCloses_short hq] at h
    rw [token_short hq, ← List.singleton_append, List.getLast?_append, getLast?_shortBody_text h]
    rintro ⟨⟩
    exact absurd hq (by decide)
  | numeral hq hd =>
    rw [token_numeral hq hd]
    exact of_mem fun _ => ne_line_feed_of_mem_numeralTail
  | name hs =>
    rw [token_name hs]
    refine of_mem fun c hc => ?_
    rintro rfl
    exact absurd (List.mem_takeWhile_imp hc) (by decide)
  | @long level inside hf hl =>
    subst hf
    rw [tokenCloses_long hl] at h
    rw [token_long hl, ← List.cons_append, List.getLast?_append, getLast?_longBody_text h]
    simp
  | symbol hq hd hp hn hb =>
    rw [(token_symbol hq hd hp hn hb).1]
    exact of_mem fun _ => ne_line_feed_of_mem_symbolTail

end Ending

end LuaBundle.Lua

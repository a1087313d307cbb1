import LuaBundle.Lua.Quote
import LuaBundle.Proofs.Lua.Kinds
import LuaBundle.Proofs.Text.Offset
import LuaBundle.Proofs.Text.Utf8

namespace LuaBundle.Lua

section Digit

theorem isDigit_decimalDigit (n : Nat) : (decimalDigit n).isDigit := by
  have h : ∀ d < 10, (Char.ofNat (48 + d)).isDigit := by decide
  exact h _ (Nat.mod_lt n (by decide))

theorem hexDigit?_decimalDigit (n : Nat) : hexDigit? (decimalDigit n) = some (n % 10) := by
  have h : ∀ d < 10, hexDigit? (Char.ofNat (48 + d)) = some d := by decide
  exact h _ (Nat.mod_lt n (by decide))

theorem digitsValue_decimalDigits {n : Nat} (h : n < 1000) :
    digitsValue 10 [decimalDigit (n / 100), decimalDigit (n / 10), decimalDigit n] = n := by
  simp only [digitsValue, List.foldl_cons, List.foldl_nil, hexDigit?_decimalDigit, Option.getD_some]
  omega

end Digit

-- An escape that starts with a digit is decimal.
theorem escape_digit {c : Char} {s : List Char} (hc : c.isDigit) :
    escape (c :: s) =
      let digits := (s.take 2).takeWhile Char.isDigit
      ⟨c :: digits, [UInt8.ofNat (min (digitsValue 10 (c :: digits)) 255)],
        s.drop digits.length⟩ := by
  have hl : letterEscape? c = none := by
    unfold letterEscape?
    split <;> first | rfl | exact absurd hc (by decide)
  have hb : isLineBreak c = false := by
    by_contra hb
    simp only [isLineBreak, Bool.not_eq_false, Bool.or_eq_true, decide_eq_true_eq] at hb
    rcases hb with rfl | rfl <;> exact absurd hc (by decide)
  have hz : c ≠ 'z' := by rintro rfl; exact absurd hc (by decide)
  have hx : c ≠ 'x' := by rintro rfl; exact absurd hc (by decide)
  simp only [escape, hl, hb, hz, hx, hc, if_true, if_false]
  rfl

-- Each character is quoted as itself or as an escape that denotes it, whatever follows.
theorem quoteCharacter_cases (c : Char) :
    (quoteCharacter c = [c] ∧ isOrdinary '"' c) ∨
    ∃ e, quoteCharacter c = '\\' :: e ∧
      ∀ s, escape (e ++ s) = ⟨e, String.utf8EncodeChar c, s⟩ := by
  unfold quoteCharacter
  split
  case isTrue hc =>
    subst hc
    exact .inr ⟨['\\'], rfl, fun s => rfl⟩
  split
  case isTrue hc =>
    subst hc
    exact .inr ⟨['"'], rfl, fun s => rfl⟩
  split
  case isTrue hc =>
    subst hc
    exact .inr ⟨['n'], rfl, fun s => rfl⟩
  split
  case isTrue hc =>
    subst hc
    exact .inr ⟨['r'], rfl, fun s => rfl⟩
  split
  case isTrue hc =>
    subst hc
    exact .inr ⟨['t'], rfl, fun s => rfl⟩
  split
  case isTrue hc =>
    refine .inr ⟨_, rfl, fun s => ?_⟩
    have hn : c.toNat < 128 := by
      simp only [isControl, Bool.or_eq_true, decide_eq_true_eq] at hc
      omega
    have hd := digitsValue_decimalDigits (n := c.toNat) (by omega)
    have hd₁ := isDigit_decimalDigit (c.toNat / 10)
    have hd₂ := isDigit_decimalDigit c.toNat
    have he := Text.Utf8.utf8EncodeChar_of_lt (c := c) hn
    rw [List.cons_append, escape_digit (isDigit_decimalDigit _)]
    simp only [List.cons_append, List.nil_append, List.take_succ_cons, List.take_zero,
      List.takeWhile_cons_of_pos hd₁, List.takeWhile_cons_of_pos hd₂, List.takeWhile_nil, hd, he,
      List.length_cons, List.length_nil, List.drop_succ_cons, List.drop_zero]
    rw [Nat.min_eq_left (by omega)]
  case isFalse hb hq hn hr ht hc =>
    exact .inl ⟨rfl, by simp [isOrdinary, isLineBreak, *]⟩

section Literal

variable {c : Char} {s : List Char}

theorem shortBody_cons_ordinary {quote : Char} (hc : isOrdinary quote c) :
    shortBody quote (c :: s) =
        ⟨c :: (shortBody quote s).text,
          String.utf8EncodeChar c ++ (shortBody quote s).value, (shortBody quote s).rest⟩ ∧
      shortCloses quote (c :: s) = shortCloses quote s := by
  have ht := List.takeWhile_cons_of_pos (l := s) hc
  have hd := List.dropWhile_cons_of_pos (l := s) hc
  cases hs : s.dropWhile (isOrdinary quote) with
  | nil =>
    rw [shortBody_eq_of_dropWhile_nil hs, shortBody_eq_of_dropWhile_nil (hd.trans hs),
      shortCloses_eq_of_dropWhile_nil hs, shortCloses_eq_of_dropWhile_nil (hd.trans hs), ht,
      Text.encode_cons]
    exact ⟨rfl, rfl⟩
  | cons d r =>
    rw [shortBody_eq_of_dropWhile_cons hs, shortBody_eq_of_dropWhile_cons (hd.trans hs),
      shortCloses_eq_of_dropWhile_cons hs, shortCloses_eq_of_dropWhile_cons (hd.trans hs), ht]
    refine ⟨?_, rfl⟩
    dsimp only
    split
    case isTrue => rw [Text.encode_cons]; rfl
    case isFalse =>
      split
      case isTrue => rw [Text.encode_cons, List.append_assoc]; rfl
      case isFalse => rw [Text.encode_cons]

theorem shortBody_backslash {quote : Char} (hq : isQuote quote) (s : List Char) :
    shortBody quote ('\\' :: s) =
        ⟨'\\' :: ((escape s).text ++ (shortBody quote (escape s).rest).text),
          (escape s).value ++ (shortBody quote (escape s).rest).value,
          (shortBody quote (escape s).rest).rest⟩ ∧
      shortCloses quote ('\\' :: s) = shortCloses quote (escape s).rest := by
  have hb := isOrdinary_backslash quote
  have hne : '\\' ≠ quote := by
    rintro rfl
    exact absurd hq (by decide)
  have hd := List.dropWhile_cons_of_neg (l := s) (Bool.eq_false_iff.mp hb)
  have ht := List.takeWhile_cons_of_neg (l := s) (Bool.eq_false_iff.mp hb)
  rw [shortBody_eq_of_dropWhile_cons hd, shortCloses_eq_of_dropWhile_cons hd, ht, if_neg hne]
  simp [hne, Text.encode]

-- A quoted text is read back up to the closing quote, whatever follows.
theorem shortBody_quoted (value y : List Char) :
    shortBody '"' (value.flatMap quoteCharacter ++ '"' :: y) =
        ⟨value.flatMap quoteCharacter ++ ['"'], Text.encode value, y⟩ ∧
      shortCloses '"' (value.flatMap quoteCharacter ++ '"' :: y) := by
  induction value with
  | nil =>
    have hd : ('"' :: y).dropWhile (isOrdinary '"') = '"' :: y := rfl
    have ht : ('"' :: y).takeWhile (isOrdinary '"') = [] := rfl
    rw [List.flatMap_nil, List.nil_append, shortBody_eq_of_dropWhile_cons hd,
      shortCloses_eq_of_dropWhile_cons hd, ht]
    exact ⟨rfl, rfl⟩
  | cons c value ih =>
    obtain ⟨hbody, hcloses⟩ := ih
    rw [List.flatMap_cons, List.append_assoc]
    rcases quoteCharacter_cases c with ⟨hq, hc⟩ | ⟨e, hq, he⟩
    case inl =>
      obtain ⟨hb, hs⟩ :=
        shortBody_cons_ordinary (s := value.flatMap quoteCharacter ++ '"' :: y) hc
      rw [hq, List.singleton_append, hb, hs, hbody]
      exact ⟨rfl, hcloses⟩
    case inr =>
      have hdouble : isQuote '"' := by decide
      obtain ⟨hb, hs⟩ :=
        shortBody_backslash hdouble (e ++ (value.flatMap quoteCharacter ++ '"' :: y))
      rw [hq, List.cons_append, hb, hs, he, hbody]
      exact ⟨by simp [Text.encode], hcloses⟩

theorem toList_quote (value : String) :
    (quote value).toList = '"' :: (value.toList.flatMap quoteCharacter ++ ['"']) := by
  simp [quote]

theorem begins_quote (value : String) (y : List Char) :
    Begins ((quote value).toList ++ y) (.str value) y := by
  obtain ⟨hbody, hcloses⟩ := shortBody_quoted value.toList y
  rw [toList_quote, List.cons_append, List.append_assoc, List.singleton_append]
  have hq : isQuote '"' := by decide
  refine .of_bare ⟨by simp [isSpace], by simp⟩ ?_ ?_ ?_
  · rw [token_short hq, hbody, Text.decodeLossy_encode, String.ofList_toList]
  · rw [token_short hq, hbody]
  · rw [tokenCloses_short hq]
    exact hcloses

-- A text of characters that denote themselves is read as it stands between quotes.
theorem begins_ordinary {quote : Char} (hq : isQuote quote) (hs : ∀ c ∈ s, isOrdinary quote c)
    (y : List Char) :
    Begins (quote :: (s ++ [quote]) ++ y) (.str (String.ofList s)) y := by
  have hend : (quote :: y).head?.all fun c => !isOrdinary quote c := by simp [isOrdinary_quote]
  have hd := dropWhile_append_of_head? hs hend
  have hbody : shortBody quote (s ++ quote :: y) = ⟨s ++ [quote], Text.encode s, y⟩ := by
    rw [shortBody_eq_of_dropWhile_cons hd, takeWhile_append_of_head? hs hend, if_pos rfl]
  have hcloses : shortCloses quote (s ++ quote :: y) := by
    rw [shortCloses_eq_of_dropWhile_cons hd]
    simp
  have hbare : Bare (quote :: (s ++ quote :: y)) := by
    rcases isQuote_iff.mp hq with rfl | rfl <;> exact ⟨by simp [isSpace], by simp⟩
  rw [List.cons_append, List.append_assoc, List.singleton_append]
  refine .of_bare hbare ?_ ?_ ?_
  · rw [token_short hq, hbody, Text.decodeLossy_encode]
  · rw [token_short hq, hbody]
  · rw [tokenCloses_short hq]
    exact hcloses

end Literal

section Front

variable {y : List Char}

-- A symbol that is no part of a longer one.
def isLoneSymbol (c : Char) : Bool :=
  c = '(' || c = ')' || c = ','

theorem begins_loneSymbol {c : Char} (hc : isLoneSymbol c) :
    Begins (c :: y) (.symbol (String.singleton c)) y := by
  have hc : c = '(' ∨ c = ')' ∨ c = ',' := by simpa [isLoneSymbol, or_assoc] using hc
  have hs : symbolTail c y = [] := by
    unfold symbolTail
    rw [if_neg (by rintro ⟨rfl, -⟩; simp at hc), if_neg]
    rcases hc with rfl | rfl | rfl <;> cases y <;> simp [symbolPairs]
  obtain ⟨ht, hcl⟩ : token c y = ⟨[c], .symbol (String.ofList [c]), y⟩ ∧ tokenCloses c y := by
    have := @token_symbol c y (by rcases hc with rfl | rfl | rfl <;> decide)
      (by rcases hc with rfl | rfl | rfl <;> decide) (by rcases hc with rfl | rfl | rfl <;> simp)
      (by rcases hc with rfl | rfl | rfl <;> decide) (by rcases hc with rfl | rfl | rfl <;> simp)
    rwa [hs] at this
  refine .of_bare ?_ (by rw [ht]; rfl) (by rw [ht]) hcl
  rcases hc with rfl | rfl | rfl <;> exact ⟨by simp [isSpace], by simp⟩

-- A text that is one name.
def isName : List Char → Bool
  | [] => false
  | c :: s => isNameStart c && s.all isNameCharacter

theorem bare_name {name : List Char} (hn : isName name) (y : List Char) : Bare (name ++ y) := by
  cases name with
  | nil => cases hn
  | cons c s =>
    have hc : isNameStart c := by
      rw [isName, Bool.and_eq_true] at hn
      exact hn.1
    rw [List.cons_append]
    constructor
    · by_contra hs
      have hs : isSpace c := by simpa using hs
      have hn : isNameStart c = false := eq_false_of_isSpace (by decide) hs
      simp [hn] at hc
    · rw [Ne, take_two_eq_dashes]
      rintro ⟨rfl, -⟩
      exact absurd hc (by decide)

theorem begins_name {name : String} (hn : isName name.toList)
    (hy : y.head?.all fun d => !isNameCharacter d) : Begins (name.toList ++ y) (.name name) y := by
  have hbare := bare_name hn y
  cases hs : name.toList with
  | nil => simp [hs, isName] at hn
  | cons c s =>
    rw [hs] at hn hbare
    obtain ⟨hc, hn⟩ : isNameStart c ∧ ∀ d ∈ s, isNameCharacter d := by
      simpa [isName, List.all_eq_true] using hn
    have hname : String.ofList (c :: s) = name := by rw [← hs, String.ofList_toList]
    have ht : token c (s ++ y) = ⟨c :: s, .name name, y⟩ := by
      rw [token_name hc, takeWhile_append_of_head? hn hy, dropWhile_append_of_head? hn hy, hname]
    rw [List.cons_append] at hbare ⊢
    exact .of_bare hbare (by rw [ht]) (by rw [ht]) (tokenCloses_name hc)

theorem lexFrom_name {name : String} (hn : isName name.toList)
    (hy : y.head?.all fun d => !isNameCharacter d) (n : Nat) :
    lexFrom n (name.toList ++ y) =
      ⟨.name name, n, n + Text.size name.toList⟩ :: lexFrom (n + Text.size name.toList) y :=
  (begins_name hn hy).lexFrom_append (bare_name hn y) n

theorem begins_ellipsis : Begins ('.' :: '.' :: '.' :: y) (.symbol "...") y := by
  have hs : symbolTail '.' ('.' :: '.' :: y) = ['.', '.'] := rfl
  obtain ⟨ht, hc⟩ := @token_symbol '.' ('.' :: '.' :: y) (by decide) (by decide) (fun _ => rfl)
    (by decide) (by simp)
  rw [hs] at ht
  exact .of_bare ⟨by simp [isSpace], by simp⟩ (by rw [ht]) (by rw [ht]; rfl) hc

end Front

section Control

theorem isControl_decimalDigit (n : Nat) : isControl (decimalDigit n) = false := by
  have h : ∀ d < 10, isControl (Char.ofNat (48 + d)) = false := by decide
  exact h _ (Nat.mod_lt n (by decide))

-- What a character is quoted as holds no control character.
theorem isControl_of_mem_quoteCharacter (c : Char) :
    ∀ d ∈ quoteCharacter c, isControl d = false := by
  fun_cases quoteCharacter c with
  | case6 hb hq hn hr ht hc =>
    have : isControl '\\' = false := by decide
    simp [controlEscape, isControl_decimalDigit, this]
  | case7 hb hq hn hr ht hc => simpa using hc
  | _ => simp [isControl]

theorem bytes_quote (value : String) :
    ∀ b ∈ Text.encode (quote value).toList, 0x20 ≤ b ∧ b ≠ 0x7F := by
  have hquote : isControl '"' = false := by decide
  have hc : ∀ c ∈ (quote value).toList, isControl c = false := by
    intro c hc
    rw [toList_quote] at hc
    rcases List.mem_cons.mp hc with rfl | hc
    case inl => exact hquote
    case inr =>
      rcases List.mem_append.mp hc with hc | hc
      case inl =>
        obtain ⟨d, -, hd⟩ := List.mem_flatMap.mp hc
        exact isControl_of_mem_quoteCharacter d c hd
      case inr => rwa [List.mem_singleton.mp hc]
  intro b hb
  obtain ⟨c, hmem, hb⟩ := List.mem_flatMap.mp hb
  have hc := hc c hmem
  simp only [isControl, Bool.or_eq_false_iff, decide_eq_false_iff_not, Nat.not_lt] at hc
  rcases Text.Utf8.eq_or_le_of_mem_utf8EncodeChar hb with ⟨hlt, rfl⟩ | hb
  case inl =>
    refine ⟨Text.Utf8.le_ofNat (by omega) hc.1, fun he => hc.2 ?_⟩
    rw [← UInt8.toNat_inj, Text.Utf8.toNat_ofNat (by omega)] at he
    exact he
  case inr =>
    rw [UInt8.le_iff_toNat_le] at hb ⊢
    rw [Ne, ← UInt8.toNat_inj]
    simp at hb ⊢
    omega

end Control

section RoundTrip

theorem lexFrom_quote_append (n : Nat) (value : String) (y : List Char) :
    lexFrom n ((quote value).toList ++ y) =
      ⟨.str value, n, n + Text.size (quote value).toList⟩ ::
        lexFrom (n + Text.size (quote value).toList) y := by
  have hb : Bare ((quote value).toList ++ y) := by
    rw [toList_quote]
    exact ⟨by simp [isSpace], by simp⟩
  exact (begins_quote value y).lexFrom_append hb n

-- A quoted text is read back as that text, whatever follows, and what follows is read as if it
-- stood on a line of its own.
theorem lex_quote_append (value s : String) :
    lex (quote value ++ s) =
        ⟨.str value, 0, Text.size (quote value).toList⟩ ::
          (lex ("\n" ++ s)).map (Token.shift (Text.size (quote value).toList - 1)) ∧
      ∀ b ∈ Text.encode (quote value).toList, 0x20 ≤ b ∧ b ≠ 0x7F := by
  refine ⟨?_, bytes_quote value⟩
  have hs : (quote value ++ s).toList = (quote value).toList ++ s.toList := by simp
  have hpre : preamble ((quote value).toList ++ s.toList) =
      ([], (quote value).toList ++ s.toList) := by
    rw [toList_quote]
    rfl
  have hsize : 1 + (Text.size (quote value).toList - 1) = Text.size (quote value).toList := by
    have := Text.size_pos_of_ne_nil (s := (quote value).toList) (by simp [toList_quote])
    omega
  rw [lex, hs, hpre, lex_line_feed_append, ← lexFrom_add, hsize]
  dsimp only [Text.size_nil]
  rw [lexFrom_quote_append, Nat.zero_add]

end RoundTrip

end LuaBundle.Lua

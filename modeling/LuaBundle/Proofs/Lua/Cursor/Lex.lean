import LuaBundle.Proofs.Lua.Cursor.Readers
import LuaBundle.Proofs.Lua.Kinds

namespace LuaBundle.Lua.Cursor

open Text

section Slices

variable {source before text rest : List Char}

-- The first byte of a character is no continuation byte.
theorem exists_first (c : Char) : ∃ first tail, String.utf8EncodeChar c = first :: tail ∧
    (first < 0x80 ∨ 0xC0 ≤ first) := by
  obtain ⟨first, tail, he, hnext⟩ := Utf8.next_utf8EncodeChar c
  refine ⟨first, tail, he, ?_⟩
  by_contra h
  rw [not_or, UInt8.not_lt, UInt8.not_le] at h
  have htails : Utf8.tails first = none := by
    rw [Utf8.tails, if_neg (UInt8.not_lt.mpr h.1), if_pos]
    exact UInt8.lt_trans h.2 (by decide)
  have hread := hnext []
  rw [Utf8.next, htails] at hread
  cases (Prod.mk.inj hread).1

theorem isBoundary_encode (h : source = before ++ rest) :
    isBoundary (encode source) (size before) := by
  rw [isBoundary, Bool.or_eq_true, decide_eq_true_eq]
  cases rest with
  | nil =>
    left
    rw [length_encode, h, List.append_nil]
  | cons c rest =>
    obtain ⟨first, tail, he, hfirst⟩ := exists_first c
    right
    rw [← List.head?_drop, drop_encode h, encode_cons, he]
    simpa using hfirst

theorem slice?_encode (h : source = before ++ (text ++ rest)) :
    Cursor.slice? (encode source) (size before) (size before + size text) =
      some (String.ofList text) := by
  have hstop : source = (before ++ text) ++ rest := by rw [h, List.append_assoc]
  have hstopBoundary := isBoundary_encode hstop
  rw [size_append] at hstopBoundary
  have htake := take_encode hstop
  rw [size_append] at htake
  rw [Cursor.slice?, if_pos ⟨Nat.le_add_right _ _, isBoundary_encode h, hstopBoundary⟩, htake,
    drop_encode rfl, decodeLossy_encode]

end Slices

section Lex

variable {first : UInt8} {c : Char} {bytes : List UInt8} {source before r s : List Char}

-- What the first byte of a character and those behind it tell is what the characters tell.
structure Shown (first : UInt8) (bytes : List UInt8) (c : Char) (r : List Char) : Prop where
  quote : (char first = '"' ∨ char first = '\'') ↔ isQuote c
  bracket : Cursor.longLevel? (first :: bytes) =
    if c = '[' then (Lua.longLevel? r).map Prod.fst else none
  numeral : ((char first).isDigit ∨
      char first = '.' ∧ (bytes.head?.any fun b => (char b).isDigit)) ↔
    (c.isDigit ∨ c = '.' ∧ startsWithDigit r)
  name : isNameStart (char first) = isNameStart c
  ascii : c.toNat < 0x80 → char first = c ∧ bytes = encode r

theorem shown (he : encode (c :: r) = first :: bytes) : Shown first bytes c r := by
  have hfirst : first ∈ String.utf8EncodeChar c := by
    obtain ⟨first', tail, he', -, hmem, -⟩ := exists_encode_cons c r
    obtain ⟨rfl, -⟩ := List.cons.inj (he'.symm.trans he)
    exact hmem
  have hascii (hc : c.toNat < 0x80) : char first = c ∧ bytes = encode r := by
    obtain ⟨b, he', hb⟩ := encode_cons_of_lt hc r
    obtain ⟨rfl, rfl⟩ := List.cons.inj (he'.symm.trans he)
    exact ⟨hb, rfl⟩
  have hdot : char first = '.' ↔ c = '.' := by
    simpa using (blind_eq (d := '.') (by decide)).char_eq hfirst
  refine ⟨?_, ?_, ?_, blind_isNameStart.char_eq hfirst, hascii⟩
  · rw [← isQuote_iff, blind_isQuote.char_eq hfirst]
  · rw [← he]
    split
    case isTrue hc => rw [hc, longLevel?_bracket]
    case isFalse hc => exact longLevel?_of_ne (by simpa using hc)
  · rw [blind_isDigit.char_eq hfirst, hdot]
    refine or_congr_right (and_congr_right fun hc => ?_)
    rw [(hascii (hc ▸ by decide)).2, head?_any_encode blind_isDigit]
    rfl

-- A name is cut out whole, and so is a symbol.
theorem Shown.slice?_name (h : Shown first bytes c r) (hs : source = before ++ c :: r)
    (he : encode (c :: r) = first :: bytes) (hn : isNameStart c) :
    size (c :: r.takeWhile isNameCharacter) = 1 + run isNameCharacter bytes ∧
      slice? (encode source) (size before) (size before + 1 + run isNameCharacter bytes) =
        some (String.ofList (c :: r.takeWhile isNameCharacter)) := by
  have hrun : 1 + run isNameCharacter bytes = size (c :: r.takeWhile isNameCharacter) := by
    have hc : isNameCharacter c := by simp [isNameCharacter, hn]
    have hfirst : isNameCharacter (char first) := by simp [isNameCharacter, h.name, hn]
    have hall := blind_isNameCharacter.run_encode (c :: r)
    rwa [he, run_cons, if_pos hfirst, List.takeWhile_cons_of_pos hc] at hall
  have hparts : source =
      before ++ ((c :: r.takeWhile isNameCharacter) ++ r.dropWhile isNameCharacter) := by
    rw [hs, List.cons_append, List.takeWhile_append_dropWhile]
  have hslice := slice?_encode hparts
  rw [← hrun, ← Nat.add_assoc] at hslice
  exact ⟨hrun.symm, hslice⟩

theorem slice?_symbol (hs : source = before ++ c :: r) (hc : c.toNat < 0x80) :
    slice? (encode source) (size before) (size before + 1 + size (symbolTail c r)) =
      some (String.ofList (c :: symbolTail c r)) := by
  have hparts : source =
      before ++ ((c :: symbolTail c r) ++ r.drop (symbolTail c r).length) := by
    rw [hs, List.cons_append, append_drop_of_isPrefix (symbolTail_isPrefix c r)]
  have hslice := slice?_encode hparts
  rwa [size_cons_of_lt hc, ← Nat.add_assoc] at hslice

-- The token that begins with a character is that which begins with its first byte.
theorem token?_encode (hs : source = before ++ c :: r) (he : encode (c :: r) = first :: bytes) :
    ∃ length, size (token c r).text = 1 + length ∧
      token? (encode source) (size before) first bytes = some ((token c r).value, length) := by
  have h := shown he
  simp only [token?, h.quote, h.bracket, h.numeral, h.name]
  cases lead c r with
  | short hq =>
    have hc := lt_of_isQuote hq
    obtain ⟨rfl, rfl⟩ := h.ascii hc
    rw [token_short hq, if_pos hq, shortBody_encode hq]
    exact ⟨_, size_cons_of_lt hc _, rfl⟩
  | numeral hq hd =>
    have hc : c.toNat < 0x80 := by
      rcases hd with hd | ⟨rfl, -⟩
      case inl => exact lt_of_isDigit hd
      case inr => decide
    have hne : c ≠ '[' := by
      rintro rfl
      simp [Char.isDigit] at hd
    obtain ⟨rfl, rfl⟩ := h.ascii hc
    rw [token_numeral hq hd, if_neg (by simp [hq]), if_neg hne]
    simp only [if_pos hd, numeralTail_encode]
    exact ⟨_, size_cons_of_lt hc _, rfl⟩
  | name hn =>
    have hne : c ≠ '[' := by
      rintro rfl
      exact absurd hn (by decide)
    obtain ⟨hlength, hslice⟩ := h.slice?_name hs he hn
    rw [token_name hn, if_neg (by simp [isQuote_of_isNameStart hn]), if_neg hne]
    simp only [if_neg (not_numeral hn), if_pos hn, hslice]
    exact ⟨_, hlength, rfl⟩
  | @long level inside hf hl =>
    subst hf
    obtain ⟨-, rfl⟩ := h.ascii (by decide)
    have hdrop : (encode r).drop (level + 1) = encode inside := by
      rw [← longOpener_append_of_longLevel? hl, ← size_longOpener]
      exact drop_encode rfl
    rw [token_long hl, if_neg (by decide), if_pos rfl, hl]
    simp only [Option.map_some, hdrop, longBody_encode, decodeLossy_encode]
    refine ⟨_, ?_, rfl⟩
    rw [size_cons_of_lt (by decide), size_append, size_longOpener]
  | symbol hq hd hp hn hb =>
    have hlength : symbol (first :: bytes) - 1 = size (symbolTail c r) := by
      rw [← he, symbol_encode]
      omega
    have hc : c.toNat < 0x80 := by
      by_contra hc
      simp [isNameStart_of_beyond (Nat.not_lt.mp hc)] at hn
    have hnone : (if c = '[' then (Lua.longLevel? r).map Prod.fst else none) = none := by
      split
      case isTrue hf => rw [hb hf]; rfl
      case isFalse => rfl
    have hnd : ¬ (c.isDigit ∨ c = '.' ∧ startsWithDigit r) := by
      rintro (h | ⟨hf, h⟩)
      case inl => simp [hd] at h
      case inr => simp [hp hf] at h
    rw [(token_symbol hq hd hp hn hb).1, if_neg (by simp [hq]), hnone]
    simp only [if_neg hnd, hn, hlength, slice?_symbol hs hc]
    exact ⟨_, size_cons_of_lt hc _, rfl⟩

theorem lexFrom?_eq_nil {source : List UInt8} {n : Nat}
    (h : source.drop (n + Cursor.trivia (source.drop n)) = []) : lexFrom? source n = some [] := by
  rw [lexFrom?]
  split
  case h_1 => rfl
  case h_2 h' => cases h'.symm.trans h

theorem lexFrom?_eq_cons {source : List UInt8} {n length : Nat} {kind : Kind} {more : List Token}
    (h : source.drop (n + Cursor.trivia (source.drop n)) = first :: bytes)
    (ht : token? source (n + Cursor.trivia (source.drop n)) first bytes = some (kind, length))
    (hm : lexFrom? source (n + Cursor.trivia (source.drop n) + 1 + length) = some more) :
    lexFrom? source n =
      some (⟨kind, n + Cursor.trivia (source.drop n),
        n + Cursor.trivia (source.drop n) + 1 + length⟩ :: more) := by
  rw [lexFrom?]
  split
  case h_1 h' => cases h'.symm.trans h
  case h_2 h' =>
    obtain ⟨rfl, rfl⟩ := List.cons.inj (h'.symm.trans h)
    rw [ht]
    simp only [Option.bind_eq_bind, Option.bind_some, hm]
    rfl

-- By induction on what is left of the source, token by token.
theorem lexFrom?_encode {before s : List Char} (hs : source = before ++ s) :
    lexFrom? (encode source) (size before) = some (lexFrom (size before) s) := by
  have hrest : source = (before ++ (Lua.trivia s).1) ++ (Lua.trivia s).2 := by
    rw [hs, List.append_assoc, trivia_append]
  have hstart : size before + Cursor.trivia ((encode source).drop (size before)) =
      size (before ++ (Lua.trivia s).1) := by
    rw [drop_encode hs, trivia_encode, size_append]
  match htrivia : (Lua.trivia s).2 with
  | [] =>
    rw [lexFrom_eq_nil htrivia]
    refine lexFrom?_eq_nil ?_
    rw [hstart, drop_encode hrest, htrivia, encode_nil]
  | c :: r =>
    rw [htrivia] at hrest
    obtain ⟨first, tail, he, -⟩ := exists_encode_cons c r
    obtain ⟨length, hlength, htoken⟩ := token?_encode hrest he
    have hstop : source = (before ++ (Lua.trivia s).1 ++ (token c r).text) ++ (token c r).rest := by
      rw [hrest, List.append_assoc (before ++ _), token_splits]
    have hmore := lexFrom?_encode hstop
    rw [size_append _ (token c r).text, hlength, ← hstart, ← Nat.add_assoc] at hmore
    rw [← hstart] at htoken
    have hfirst : (encode source).drop
        (size before + Cursor.trivia ((encode source).drop (size before))) =
          first :: (tail ++ encode r) := by
      rw [hstart, drop_encode hrest, he]
    rw [lexFrom_eq_cons htrivia, lexFrom?_eq_cons hfirst htoken hmore, hlength, hstart, size_append,
      Nat.add_assoc _ 1]
termination_by s.length
decreasing_by exact length_token_rest_lt htrivia

theorem hashLine_encode (s : List Char) :
    (if startsWith ['#'] (encode s) then run (· ≠ '\n') (encode s) else 0) =
      size (preamble.hashLine s).1 := by
  have hhash : startsWith ['#'] (encode s) ↔ s.head? = some '#' := by
    rw [startsWith_encode, List.head?_eq_some_iff]
    exact exists_congr fun t => eq_comm
  simp only [hhash, (blind_ne (d := '\n') (by decide)).run_encode]
  unfold preamble.hashLine
  split <;> rfl

theorem preamble_encode (s : List Char) :
    Cursor.preamble (encode s) = size (Lua.preamble s).1 := by
  rw [Cursor.preamble]
  fun_cases Lua.preamble s
  case case1 r =>
    have hmark : startsWith ['\uFEFF'] (encode ('\uFEFF' :: r)) :=
      startsWith_encode.mpr ⟨r, rfl⟩
    have hrest : (encode ('\uFEFF' :: r)).drop 3 = encode r := drop_encode (t := ['\uFEFF']) rfl
    simp only [if_pos hmark, hrest]
    rw [hashLine_encode]
    rfl
  case case2 h =>
    have hmark : ¬ startsWith ['\uFEFF'] (encode s) := fun hs => by
      obtain ⟨r, hr⟩ := startsWith_encode.mp hs
      exact h r hr.symm
    simp only [if_neg hmark, List.drop_zero]
    rw [hashLine_encode, Nat.zero_add]

-- The cursor finds the tokens that the lexer finds, and cuts no character.
theorem lex?_encode (source : String) : lex? (encode source.toList) = some (lex source) := by
  rw [lex?, preamble_encode]
  exact lexFrom?_encode (preamble_append source.toList).symm

end Lex

end LuaBundle.Lua.Cursor

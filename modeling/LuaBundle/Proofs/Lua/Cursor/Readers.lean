import LuaBundle.Proofs.Lua.Cursor.Bytes
import LuaBundle.Proofs.Lua.Trivia

namespace LuaBundle.Lua.Cursor

open Text

section Brackets

variable {c : Char} {level : Nat} {s r inside : List Char} {bytes front : List UInt8}

theorem size_longOpener (level : Nat) : size (longOpener level) = level + 1 := by
  rw [size_eq_length]
  · simp [longOpener]
  · intro c hc
    rcases List.mem_append.mp hc with hc | hc
    case inl => rw [(List.mem_replicate.mp hc).2]; decide
    case inr => rw [List.mem_singleton.mp hc]; decide

theorem size_longCloser (level : Nat) : size (longCloser level) = level + 2 := by
  rw [size_eq_length]
  · simp [longCloser]
  · intro c hc
    have hc : c = ']' ∨ c = '=' := by
      simp [longCloser] at hc
      tauto
    rcases hc with rfl | rfl <;> decide

theorem longLevel?_bracket (r : List Char) :
    Cursor.longLevel? (encode ('[' :: r)) = (Lua.longLevel? r).map Prod.fst := by
  have hlevel : ∀ c ∈ r.takeWhile (· = '='), c.toNat < 0x80 := by
    intro c hc
    rw [show c = '=' by simpa using List.mem_takeWhile_imp hc]
    decide
  have hdrop : (encode ('[' :: r)).drop (1 + size (r.takeWhile (· = '='))) =
      encode (r.dropWhile (· = '=')) := by
    refine drop_encode (t := '[' :: r.takeWhile (· = '=')) ?_
    rw [List.cons_append, List.takeWhile_append_dropWhile]
  have hrun : run (· = '=') ((encode ('[' :: r)).drop 1) = size (r.takeWhile (· = '=')) :=
    (blind_eq (by decide)).run_encode r
  rw [Cursor.longLevel?]
  simp only [hrun, hdrop, startsWith_encode]
  have hopens : ['['] <+: '[' :: r := ⟨r, rfl⟩
  by_cases hb : ∃ body, r.dropWhile (· = '=') = '[' :: body
  case pos =>
    obtain ⟨body, hbody⟩ := hb
    rw [if_pos ⟨hopens, body, hbody.symm⟩, Lua.longLevel?, hbody, size_eq_length hlevel]
    rfl
  case neg =>
    have hopened : ¬ (['['] <+: '[' :: r ∧ ['['] <+: r.dropWhile (· = '=')) := by
      rintro ⟨-, body, hbody⟩
      exact hb ⟨body, hbody.symm⟩
    rw [if_neg hopened, Lua.longLevel?]
    split
    case h_1 body hbody => exact absurd ⟨body, hbody⟩ hb
    case h_2 => rfl

theorem longLevel?_of_ne (h : s.head? ≠ some '[') : Cursor.longLevel? (encode s) = none := by
  rw [Cursor.longLevel?]
  refine if_neg fun hs => h ?_
  obtain ⟨r, rfl⟩ := startsWith_encode.mp hs.1
  rfl

theorem leadingBreak_encode (s : List Char) :
    Cursor.leadingBreak (encode s) = size (Lua.leadingBreak s) := by
  rw [Cursor.leadingBreak]
  simp only [startsWith_encode]
  fun_cases Lua.leadingBreak s
  case case1 r => exact if_pos (.inl ⟨r, rfl⟩)
  case case2 r => exact if_pos (.inr ⟨r, rfl⟩)
  case case3 r h =>
    rw [if_neg, if_pos (.inl ⟨r, rfl⟩)]
    · rfl
    · rintro (⟨t, ht⟩ | ⟨t, ht⟩)
      · exact h t (by simpa using ht.symm)
      · simp at ht
  case case4 r h =>
    rw [if_neg, if_pos (.inr ⟨r, rfl⟩)]
    · rfl
    · rintro (⟨t, ht⟩ | ⟨t, ht⟩)
      · simp at ht
      · exact h t (by simpa using ht.symm)
  case case5 hr hn =>
    have hnot {c : Char} {t : List Char} (hc : c = '\r' ∨ c = '\n') : ¬ c :: t <+: s := by
      rintro ⟨u, rfl⟩
      rcases hc with rfl | rfl
      · exact hr _ rfl
      · exact hn _ rfl
    rw [if_neg, if_neg]
    · rfl
    · exact not_or.mpr ⟨hnot (.inl rfl), hnot (.inr rfl)⟩
    · exact not_or.mpr ⟨hnot (.inl rfl), hnot (.inr rfl)⟩

theorem closer?_of_startsWith (h : startsWith (longCloser level) bytes) :
    closer? level bytes = some 0 := by
  unfold closer?
  rw [if_pos h]

theorem closer?_cons {b : UInt8} (h : startsWith (longCloser level) (b :: bytes) = false) :
    closer? level (b :: bytes) = (closer? level bytes).map (· + 1) := by
  rw [closer?, if_neg (by simp [h])]

-- A closer does not begin with a byte beyond ASCII.
theorem closer?_append (h : ∀ b ∈ front, 0x80 ≤ b) :
    closer? level (front ++ bytes) = (closer? level bytes).map (· + front.length) := by
  induction front with
  | nil => simp
  | cons b front ih =>
    have hb : startsWith (longCloser level) (b :: (front ++ bytes)) = false := by
      have hne : (0x5D : UInt8) ≠ b := by
        rintro rfl
        exact absurd (h _ List.mem_cons_self) (by decide)
      have he : encode (longCloser level) =
          0x5D :: encode (List.replicate level '=' ++ [']']) := rfl
      simp [startsWith, he, List.isPrefixOf, hne]
    rw [List.cons_append, closer?_cons hb, ih fun b hb => h b (.tail _ hb), Option.map_map]
    rfl

-- By induction on the text: a step over a character is a step over its first byte and over bytes
-- that no closer begins with.
theorem closer?_encode_acc (level : Nat) (s acc : List Char) :
    (closer? level (encode s)).map (· + size acc.reverse) =
      (breakOn?.go (longCloser level) s acc).map fun found => size found.1 := by
  induction s generalizing acc with
  | nil => rfl
  | cons c s ih =>
    rw [breakOn?.go]
    split
    case isTrue hp =>
      rw [closer?_of_startsWith (startsWith_encode.mpr (List.isPrefixOf_iff_prefix.mp hp))]
      simp
    case isFalse hp =>
      have hnot : ¬ startsWith (longCloser level) (encode (c :: s)) := fun h =>
        hp (List.isPrefixOf_iff_prefix.mpr (startsWith_encode.mp h))
      obtain ⟨first, tail, he, hsize, -, htail⟩ := exists_encode_cons c s
      rw [he, Bool.not_eq_true] at hnot
      rw [he, closer?_cons hnot, closer?_append htail, ← ih]
      simp only [Option.map_map, List.reverse_cons, size_append, size_cons, size_nil, hsize]
      congr 1
      funext n
      simp only [Function.comp_apply]
      omega

theorem closer?_encode (level : Nat) (s : List Char) :
    closer? level (encode s) = (breakOn? (longCloser level) s).map fun found => size found.1 := by
  simpa [breakOn?] using closer?_encode_acc level s []

theorem longBody_encode (level : Nat) (s : List Char) :
    Cursor.longBody level (encode s) =
      (encode (Lua.longBody level s).value, size (Lua.longBody level s).text) := by
  have hdrop := drop_encode (leadingBreak_append_drop s).symm
  rw [Cursor.longBody, Lua.longBody]
  simp only [leadingBreak_encode, hdrop, closer?_encode]
  cases h : breakOn? (longCloser level) (s.drop (Lua.leadingBreak s).length) with
  | none => simp [length_encode]
  | some found =>
    obtain ⟨content, rest⟩ := found
    simp only [Option.map_some, size_append, size_longCloser, Nat.add_assoc,
      take_encode (append_of_breakOn? h).symm]

theorem comment_encode (s : List Char) : Cursor.comment (encode s) = size (Lua.comment s).1 := by
  by_cases h : ∃ level inside, s = '[' :: (longOpener level ++ inside)
  case pos =>
    obtain ⟨level, inside, rfl⟩ := h
    have hopener : size ('[' :: longOpener level) = level + 2 := by
      rw [size_cons, size_longOpener, Nat.add_comm]
      rfl
    have hdrop : (encode ('[' :: (longOpener level ++ inside))).drop (level + 2) = encode inside :=
      hopener ▸ drop_encode (t := '[' :: longOpener level) rfl
    rw [Cursor.comment, longLevel?_bracket, longLevel?_opener_append, comment_long]
    simp only [Option.map_some, hdrop, longBody_encode]
    rw [← List.cons_append, size_append, hopener]
  case neg =>
    have hnone (r : List Char) (hs : s = '[' :: r) : Lua.longLevel? r = none := by
      cases hl : Lua.longLevel? r with
      | none => rfl
      | some found =>
        exact absurd ⟨found.1, found.2, by rw [hs, longOpener_append_of_longLevel? hl]⟩ h
    have hlevel : Cursor.longLevel? (encode s) = none := by
      by_cases hs : s.head? = some '['
      case pos =>
        obtain ⟨r, rfl⟩ := List.head?_eq_some_iff.mp hs
        rw [longLevel?_bracket, hnone r rfl]
        rfl
      case neg => exact longLevel?_of_ne hs
    rw [Cursor.comment, hlevel, comment_line hnone]
    exact (blind_ne (by decide)).run_encode s

theorem trivia_encode (s : List Char) : Cursor.trivia (encode s) = size (Lua.trivia s).1 := by
  have hblank (s : List Char) := blind_isSpace.run_encode s
  have hrest (s : List Char) : (encode s).drop (size (s.takeWhile isSpace)) =
      encode (s.dropWhile isSpace) :=
    drop_encode List.takeWhile_append_dropWhile.symm
  have hdashes (s : List Char) : size ('-' :: '-' :: s) = 2 + size s := by
    rw [size_cons, size_cons, ← Nat.add_assoc]
    rfl
  fun_induction Lua.trivia s with
  | case1 s blank r h more ih =>
    have hstarts : startsWith ['-', '-'] (encode ('-' :: '-' :: r)) :=
      startsWith_encode.mpr ⟨r, rfl⟩
    have hlength : Cursor.comment ((encode ('-' :: '-' :: r)).drop 2) = size (Lua.comment r).1 :=
      comment_encode r
    have hmore : (encode ('-' :: '-' :: r)).drop (2 + size (Lua.comment r).1) =
        encode (Lua.comment r).2 := by
      rw [← hdashes]
      refine drop_encode ?_
      rw [List.cons_append, List.cons_append, comment_append]
    rw [Cursor.trivia]
    simp only [hblank, hrest, h, hstarts, dite_true, hlength, hmore, more, ih, size_append, hdashes,
      blank]
    omega
  | case2 s blank hc =>
    have hstarts : ¬ startsWith ['-', '-'] (encode (s.dropWhile isSpace)) := fun h => by
      obtain ⟨r, hr⟩ := startsWith_encode.mp h
      exact hc r hr.symm
    rw [Cursor.trivia]
    simp only [hblank, hrest, dif_neg hstarts, blank]

end Brackets

section Escape

variable {b : UInt8} {c : Char} {s r : List Char}

-- A character beyond ASCII has no meaning of its own behind a backslash.
theorem escape_char_of_beyond (hc : 0x80 ≤ c.toNat) (r : List Char) :
    Lua.escape (c :: r) = ⟨[c], String.utf8EncodeChar c, r⟩ := by
  have hne {d : Char} (hd : d.toNat < 0x80) := ne_of_beyond hc hd
  simp [Lua.escape, letterEscape?_of_beyond hc, isLineBreak_of_beyond hc, isDigit_of_beyond hc,
    hne (d := 'z') (by decide), hne (d := 'x') (by decide), hne (d := 'u') (by decide)]

theorem isLineBreak_of_mem_breakPartner {d : Char} (h : d ∈ breakPartner c s) : isLineBreak d := by
  rw [breakPartner_eq] at h
  exact (Bool.and_eq_true _ _ ▸ List.mem_takeWhile_imp h).1

theorem breakPartner_char (c : Char) (s : List Char) :
    breakPartner c (((encode s).take 1).map char) = breakPartner c s := by
  cases s with
  | nil => rfl
  | cons d s =>
    obtain ⟨b, tail, he, -, hb, -⟩ := exists_encode_cons d s
    rw [he, List.take_succ_cons, List.map_cons]
    rcases char_of_mem hb with ⟨rfl, -⟩ | ⟨hbeyond, hd⟩
    case inl => simp [breakPartner]
    case inr => simp [breakPartner, isLineBreak_of_beyond hbeyond, isLineBreak_of_beyond hd]

theorem closingBrace_encode (s : List Char) :
    (if startsWith ['\x7d'] (encode s) then 1 else 0) = size (closingBrace s) := by
  simp only [startsWith_encode]
  fun_cases closingBrace s
  case case1 r => exact if_pos ⟨r, rfl⟩
  case case2 h =>
    refine if_neg ?_
    rintro ⟨r, rfl⟩
    exact h r rfl

theorem escape_of_beyond (hb : 0x80 ≤ (char b).toNat) (bytes : List UInt8) :
    Cursor.escape (b :: bytes) = ([b], 1) := by
  have hne {d : Char} (hd : d.toNat < 0x80) := ne_of_beyond hb hd
  simp [Cursor.escape, letterEscape?_of_beyond hb, isLineBreak_of_beyond hb, isDigit_of_beyond hb,
    hne (d := 'z') (by decide), hne (d := 'x') (by decide), hne (d := 'u') (by decide)]

-- Digits at the front are read alike, and so many bytes are so many characters.
theorem digits_encode {p : Char → Bool} (hp : ∀ d : Char, p d → d.toNat < 0x80) (n : Nat)
    (r : List Char) :
    let digits := (r.take n).takeWhile p
    run p ((encode r).take n) = digits.length ∧
      ((encode r).take digits.length).map char = digits ∧ ∀ d ∈ digits, d.toNat < 0x80 := by
  have hascii : ∀ d ∈ (r.take n).takeWhile p, d.toNat < 0x80 :=
    fun d hd => hp d (List.mem_takeWhile_imp hd)
  refine ⟨run_take hp n r, map_char_take ?_ hascii, hascii⟩
  exact (List.takeWhile_prefix p).trans (List.take_prefix n r)

theorem escape_braced_encode (r : List Char) :
    Cursor.escape (encode ('u' :: '\x7b' :: r)) =
      ((Lua.escape ('u' :: '\x7b' :: r)).value, size (Lua.escape ('u' :: '\x7b' :: r)).text) := by
  have hascii : ∀ d ∈ r.takeWhile isHexDigit, d.toNat < 0x80 :=
    fun d hd => lt_of_isHexDigit (List.mem_takeWhile_imp hd)
  have hrun : run isHexDigit (encode r) = (r.takeWhile isHexDigit).length := by
    rw [blind_isHexDigit.run_encode, size_eq_length hascii]
  have hafter : (encode ('\x7b' :: r)).drop (1 + (r.takeWhile isHexDigit).length) =
      encode (r.dropWhile isHexDigit) := by
    rw [← size_eq_length hascii]
    exact drop_encode (t := '\x7b' :: r.takeWhile isHexDigit)
      (by rw [List.cons_append, List.takeWhile_append_dropWhile])
  have hlength : size ('u' :: '\x7b' :: r.takeWhile isHexDigit) =
      2 + (r.takeWhile isHexDigit).length := by
    rw [size_cons_of_lt (by decide), size_cons_of_lt (by decide), size_eq_length hascii,
      ← Nat.add_assoc]
  have hfirst : encode ('u' :: '\x7b' :: r) = 0x75 :: encode ('\x7b' :: r) := rfl
  have hopen : (encode ('\x7b' :: r)).drop 1 = encode r := rfl
  have hstarts : startsWith ['\x7b'] (encode ('\x7b' :: r)) := startsWith_encode.mpr ⟨r, rfl⟩
  rw [hfirst, Cursor.escape, escape_braced]
  simp only [show char 0x75 = 'u' from rfl, hstarts, hopen, hrun, hafter, closingBrace_encode,
    map_char_take (List.takeWhile_prefix _) hascii, ← List.cons_append, size_append, hlength]
  rfl

theorem escape_encode (hc : c.toNat < 0x80) (r : List Char) :
    Cursor.escape (encode (c :: r)) =
      ((Lua.escape (c :: r)).value, size (Lua.escape (c :: r)).text) := by
  by_cases hu : c = 'u' ∧ r.head? = some '\x7b'
  case pos =>
    obtain ⟨rfl, hbrace⟩ := hu
    obtain ⟨r, rfl⟩ := List.head?_eq_some_iff.mp hbrace
    exact escape_braced_encode r
  have hsize {t : List Char} (ht : ∀ d ∈ t, d.toNat < 0x80) : size (c :: t) = 1 + t.length := by
    rw [size_cons_of_lt hc, size_eq_length ht]
  have hone : size [c] = 1 := hsize (by simp)
  obtain ⟨b, he, rfl⟩ := encode_cons_of_lt hc r
  rw [he, Cursor.escape, Lua.escape]
  cases letterEscape? (char b) with
  | some value => simp only [hone]
  | none =>
    dsimp only
    by_cases hbreak : isLineBreak (char b)
    case pos =>
      have hpartner : ∀ d ∈ breakPartner (char b) r, d.toNat < 0x80 :=
        fun d hd => lt_of_isLineBreak (isLineBreak_of_mem_breakPartner hd)
      rw [if_pos hbreak, if_pos hbreak]
      simp only [breakPartner_char, hsize hpartner]
    rw [if_neg hbreak, if_neg hbreak]
    by_cases hz : char b = 'z'
    case pos =>
      rw [if_pos hz, if_pos hz, blind_isSpace.run_encode, size_cons_of_lt hc]
    rw [if_neg hz, if_neg hz]
    by_cases hx : char b = 'x'
    case pos =>
      obtain ⟨hrun, hmap, hascii⟩ := digits_encode (fun _ => lt_of_isHexDigit) 2 r
      rw [if_pos hx, if_pos hx]
      simp only [hrun, hmap, hsize hascii]
    rw [if_neg hx, if_neg hx]
    by_cases hd : (char b).isDigit
    case pos =>
      obtain ⟨hrun, hmap, hascii⟩ := digits_encode (fun _ => lt_of_isDigit) 2 r
      rw [if_pos hd, if_pos hd]
      simp only [hrun, List.map_cons, hmap, hsize hascii]
    have hnot : ¬ (char b = 'u' ∧ startsWith ['\x7b'] (encode r)) := by
      rintro ⟨hc, hs⟩
      obtain ⟨t, rfl⟩ := startsWith_encode.mp hs
      exact hu ⟨hc, rfl⟩
    rw [if_neg hd, if_neg hd, if_neg hnot, if_neg hu, hone, Utf8.utf8EncodeChar_of_lt hc, toNat_char,
      UInt8.ofNat_toNat]

end Escape

section ShortBody

variable {b q : UInt8} {c quote : Char} {s r : List Char} {front bytes : List UInt8}

theorem isOrdinary_of_beyond (hq : quote.toNat < 0x80) (hc : 0x80 ≤ c.toNat) :
    isOrdinary quote c := by
  simp [isOrdinary, isLineBreak_of_beyond hc, ne_of_beyond hc hq,
    ne_of_beyond hc (d := '\\') (by decide)]

theorem isOrdinary_of_mem_encode (hq : quote.toNat < 0x80) (hs : ∀ c ∈ s, isOrdinary quote c)
    (hb : b ∈ encode s) : isOrdinary quote (char b) := by
  have hblind : Blind (isOrdinary quote) := fun c d hc hd =>
    (isOrdinary_of_beyond hq hc).trans (isOrdinary_of_beyond hq hd).symm
  obtain ⟨c, hc, hmem⟩ := List.mem_flatMap.mp hb
  exact (hblind.char_eq hmem).trans (hs c hc)

theorem size_quote (h : isQuote c) : size [c] = 1 := by
  rcases isQuote_iff.mp h with rfl | rfl <;> rfl

theorem shortBody_append (h : ∀ b ∈ front, isOrdinary (char q) (char b)) :
    Cursor.shortBody q (front ++ bytes) =
      (front ++ (Cursor.shortBody q bytes).1, front.length + (Cursor.shortBody q bytes).2) := by
  induction front with
  | nil => simp
  | cons b front ih =>
    have hb := h b List.mem_cons_self
    simp only [isOrdinary, Bool.and_eq_true, decide_eq_true_eq, Bool.not_eq_true'] at hb
    have hbq : b ≠ q := fun hbq => hb.1.1 (hbq ▸ rfl)
    rw [List.cons_append, Cursor.shortBody, if_neg hbq, if_neg (by simp [hb.2]), if_neg hb.1.2,
      ih fun b hb => h b (.tail _ hb), List.length_cons]
    simp only [List.cons_append, Prod.mk.injEq, true_and]
    omega

theorem shortBody_backslash (hq : isQuote (char q)) (bytes : List UInt8) :
    Cursor.shortBody q (0x5C :: bytes) =
      let piece := Cursor.escape bytes
      let more := Cursor.shortBody q (bytes.drop piece.2)
      (piece.1 ++ more.1, 1 + piece.2 + more.2) := by
  have hne : 0x5C ≠ q := by
    rintro rfl
    exact absurd hq (by decide)
  rw [Cursor.shortBody, if_neg hne, if_neg (by decide), if_pos (by decide)]

-- Where the character behind a backslash lies beyond ASCII, the cursor takes its first byte for the
-- escape and the others for ordinary ones.
theorem shortBody_escape (hq : isQuote (char q)) (r : List Char) :
    Cursor.shortBody q (0x5C :: encode r) =
      let more := Cursor.shortBody q (encode (Lua.escape r).rest)
      ((Lua.escape r).value ++ more.1, 1 + size (Lua.escape r).text + more.2) := by
  rw [shortBody_backslash hq]
  match r with
  | [] => rfl
  | c :: r =>
    by_cases hc : c.toNat < 0x80
    case pos =>
      have hdrop := drop_encode (escape_splits (c :: r)).symm
      simp only [escape_encode hc, hdrop]
    case neg =>
      obtain ⟨first, tail, he, hsize, hfirst, htail⟩ := exists_encode_cons c r
      have hbeyond := (char_of_mem hfirst).resolve_left fun h => hc h.2
      have hordinary : ∀ b ∈ tail, isOrdinary (char q) (char b) := fun b hb =>
        isOrdinary_of_beyond (lt_of_isQuote hq)
          (toNat_char b ▸ UInt8.le_iff_toNat_le.mp (htail b hb))
      have hvalue : String.utf8EncodeChar c = first :: tail :=
        List.append_cancel_right ((encode_cons c r).symm.trans he)
      simp only [he, escape_of_beyond hbeyond.1, escape_char_of_beyond hbeyond.2, List.drop_one,
        List.tail_cons, shortBody_append hordinary, hvalue, size_cons, size_nil, hsize]
      simp only [List.cons_append, List.nil_append, Prod.mk.injEq, true_and]
      omega

theorem shortBody_encode (hq : isQuote (char q)) (s : List Char) :
    Cursor.shortBody q (encode s) =
      ((Lua.shortBody (char q) s).value, size (Lua.shortBody (char q) s).text) := by
  have hplain (s : List Char) : ∀ b ∈ encode (s.takeWhile (isOrdinary (char q))),
      isOrdinary (char q) (char b) := fun b =>
    isOrdinary_of_mem_encode (lt_of_isQuote hq) fun c => List.mem_takeWhile_imp
  have hparts {s r : List Char} (h : s.dropWhile (isOrdinary (char q)) = r) :
      encode s = encode (s.takeWhile (isOrdinary (char q))) ++ encode r := by
    rw [← encode_append, ← h, List.takeWhile_append_dropWhile]
  fun_induction Lua.shortBody (char q) s with
  | case1 s plain h =>
    rw [hparts h, shortBody_append (hplain s), encode_nil, Cursor.shortBody, length_encode]
    simp [plain]
  | case2 s plain r h =>
    obtain ⟨b, he, hb⟩ := encode_cons_of_lt (lt_of_isQuote hq) r
    obtain rfl := char_injective hb
    rw [hparts h, shortBody_append (hplain s), he, Cursor.shortBody, if_pos rfl, length_encode,
      size_append, size_quote hq]
    simp [plain]
  | case3 s plain r piece more h hne ih =>
    have hslash : encode ('\\' :: r) = 0x5C :: encode r := rfl
    have hwidth : '\\'.utf8Size = 1 := rfl
    rw [hparts h, shortBody_append (hplain s), hslash, shortBody_escape hq, ih,
      length_encode]
    simp only [size_append, size_cons, hwidth, Nat.add_assoc, plain, piece, more]
  | case4 s plain c r h hne hslash =>
    have hbreak : isLineBreak c := by
      simpa [isOrdinary, hne, hslash] using not_ordinary_of_dropWhile h
    obtain ⟨b, he, rfl⟩ := encode_cons_of_lt (lt_of_isLineBreak hbreak) r
    have hbq : b ≠ q := fun hbq => hne (hbq ▸ rfl)
    rw [hparts h, shortBody_append (hplain s), he, Cursor.shortBody, if_neg hbq, if_pos hbreak,
      length_encode]
    simp [plain]

end ShortBody

section Tails

variable {c : Char} {s : List Char}

theorem numeralTail_encode (b : UInt8) (s : List Char) :
    Cursor.numeralTail b (encode s) = size (Lua.numeralTail (char b) s) := by
  induction s generalizing b with
  | nil => rfl
  | cons c s ih =>
    have hlt {d : Char} (h : isNumeralCharacter d || (isSign d && isExponentMark (char b))) :
        d.toNat < 0x80 := by
      rcases Bool.or_eq_true_iff.mp h with h | h
      case inl => exact lt_of_isNumeralCharacter h
      case inr =>
        have hsign : d = '+' ∨ d = '-' := by simpa [isSign] using (Bool.and_eq_true_iff.mp h).1
        rcases hsign with rfl | rfl <;> decide
    by_cases hc : c.toNat < 0x80
    case pos =>
      obtain ⟨b', he, rfl⟩ := encode_cons_of_lt hc s
      rw [he, Cursor.numeralTail, Lua.numeralTail, ih]
      split
      case isTrue => rw [size_cons, utf8Size_of_lt hc]
      case isFalse => rfl
    case neg =>
      obtain ⟨first, tail, he, -, hfirst, -⟩ := exists_encode_cons c s
      have hbeyond := (char_of_mem hfirst).resolve_left fun h => hc h.2
      rw [he, Cursor.numeralTail, Lua.numeralTail, if_neg (mt hlt (Nat.not_lt.mpr hbeyond.1)),
        if_neg (mt hlt hc)]
      rfl

theorem mem_symbolPairs_iff {c : Char} : c :: s.take 1 ∈ symbolPairs ↔
    symbolPairs.any fun pair => startsWith pair (encode (c :: s)) := by
  have hlength : ∀ pair ∈ symbolPairs, pair.length = 2 := by decide
  simp only [List.any_eq_true, startsWith_encode]
  constructor
  case mp => exact fun h => ⟨_, h, s.drop 1, by rw [List.cons_append, List.take_append_drop]⟩
  case mpr =>
    rintro ⟨pair, hpair, hprefix⟩
    have htake := List.prefix_iff_eq_take.mp hprefix
    rw [hlength pair hpair, List.take_succ_cons] at htake
    exact htake ▸ hpair

theorem symbol_encode (c : Char) (s : List Char) :
    symbol (encode (c :: s)) = 1 + size (symbolTail c s) := by
  have hdots : startsWith ['.', '.', '.'] (encode (c :: s)) ↔ c = '.' ∧ s.take 2 = ['.', '.'] := by
    rw [startsWith_encode, List.prefix_iff_eq_take]
    simp [eq_comm]
  have hascii : ∀ pair ∈ symbolPairs, pair.length = 2 ∧ ∀ d ∈ pair, d.toNat < 0x80 := by
    simp [symbolPairs]
  simp only [symbol, symbolTail, hdots, ← mem_symbolPairs_iff]
  split
  case isTrue h => rw [h.2]; rfl
  split
  case isTrue h =>
    obtain ⟨hlength, hlt⟩ := hascii _ h
    rw [size_eq_length fun d hd => hlt d (.tail _ hd), Nat.add_comm, ← List.length_cons, hlength]
  case isFalse => rfl

end Tails

end LuaBundle.Lua.Cursor

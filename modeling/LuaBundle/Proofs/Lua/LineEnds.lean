import LuaBundle.Proofs.Lua.Places
import LuaBundle.Proofs.Text.LineEnds

namespace LuaBundle.Lua

open Text

-- A reading of a text whose lines end in another way, of the same value.
def Reading.crlf {α : Type} (r : Reading α) : Reading α where
  text := Text.crlf r.text
  value := r.value
  rest := Text.crlf r.rest

theorem Reading.Splits.not_mem_rest {α : Type} {r : Reading α} {s : List Char} {c : Char}
    (h : r.Splits s) (hc : c ∉ s) : c ∉ r.rest := fun hr =>
  hc (h ▸ List.mem_append_right r.text hr)

section Classes

variable {p : Char → Bool}

-- Characters of a class that are taken from a text are taken from it with any line ends, where the
-- class holds no line break.
theorem crlf_takeWhile_take (hn : p '\n' = false) (n : Nat) (s : List Char) :
    crlf ((s.take n).takeWhile p) = (s.take n).takeWhile p :=
  crlf_of_not_mem (line_feed_not_mem_takeWhile hn _)

theorem drop_takeWhile_take_crlf (hn : p '\n' = false) (n : Nat) (s : List Char) :
    (crlf s).drop ((s.take n).takeWhile p).length =
      crlf (s.drop ((s.take n).takeWhile p).length) :=
  drop_crlf ((List.takeWhile_prefix p).trans (List.take_prefix n s))
    (line_feed_not_mem_takeWhile hn _)

end Classes

section Escape

variable {s r : List Char} {c : Char}

theorem breakPartner_line_feed (h : '\r' ∉ r) : breakPartner '\n' r = [] := by
  cases r with
  | nil => rfl
  | cons d r =>
    have hd : d ≠ '\r' := fun hd => h (hd ▸ List.mem_cons_self)
    rw [breakPartner, if_neg]
    simp +contextual [isLineBreak, hd]

theorem head?_crlf (hn : c ≠ '\n') (hr : c ≠ '\r') (s : List Char) :
    (crlf s).head? = some c ↔ s.head? = some c := by
  cases s with
  | nil => rfl
  | cons d s =>
    by_cases hd : d = '\n'
    case pos => simp [hd, hn.symm, hr.symm]
    case neg => simp [crlf_cons hd]

theorem closingBrace_crlf (s : List Char) : closingBrace (crlf s) = closingBrace s := by
  rw [closingBrace_eq, closingBrace_eq, takeWhile_take_crlf (by decide) (by decide)]

theorem escape_braced_crlf (r : List Char) :
    escape (crlf ('u' :: '\x7b' :: r)) = (escape ('u' :: '\x7b' :: r)).crlf := by
  have hhex : isHexDigit '\r' = isHexDigit '\n' := by decide
  have hclose (s : List Char) : crlf (closingBrace s) = closingBrace s := by
    rw [closingBrace_eq]
    exact crlf_takeWhile_take (by decide) 1 s
  have hdrop (s : List Char) :
      (crlf s).drop (closingBrace s).length = crlf (s.drop (closingBrace s).length) := by
    rw [closingBrace_eq]
    exact drop_takeWhile_take_crlf (by decide) 1 s
  have hdigits : crlf (r.takeWhile isHexDigit) = r.takeWhile isHexDigit :=
    crlf_of_not_mem (line_feed_not_mem_takeWhile (by decide) r)
  rw [crlf_cons (by decide), crlf_cons (by decide), escape_braced, escape_braced]
  simp only [Reading.crlf, takeWhile_crlf hhex, dropWhile_crlf hhex, closingBrace_crlf, hdrop,
    hdigits, crlf_cons (show 'u' ≠ '\n' by decide), crlf_cons (show '\x7b' ≠ '\n' by decide),
    crlf_append, hclose]

-- An escaped line break denotes one line feed whether it has one character or two.
theorem escape_crlf (h : '\r' ∉ s) : escape (crlf s) = (escape s).crlf := by
  have ne_of_not_break {c : Char} (hc : ¬ isLineBreak c) : c ≠ '\n' := fun hn =>
    hc (hn ▸ by decide)
  fun_cases escape s
  case case1 => rfl
  case case2 c r b hb =>
    have hc : c ≠ '\n' := by rintro rfl; cases hb
    simp only [crlf_cons hc, escape, hb, Reading.crlf, crlf_nil]
  case case3 c r h₁ h₂ partner =>
    obtain ⟨hc, hr⟩ : '\r' ≠ c ∧ '\r' ∉ r := by simpa using h
    obtain rfl : c = '\n' := by simpa [isLineBreak, hc.symm] using h₂
    have hpartner : partner = [] := breakPartner_line_feed hr
    rw [hpartner]
    rfl
  case case4 r h₁ h₂ =>
    have hc : 'z' ≠ '\n' := by decide
    have hs : isSpace '\r' = isSpace '\n' := by decide
    simp only [crlf_cons hc, escape, h₁, h₂, Bool.false_eq_true, if_true, if_false, Reading.crlf,
      takeWhile_crlf hs, dropWhile_crlf hs]
  case case5 r digits h₁ h₂ h₃ =>
    have hc : 'x' ≠ '\n' := by decide
    have hn : isHexDigit '\n' = false := by decide
    simp only [crlf_cons hc, escape, h₁, h₂, h₃, Bool.false_eq_true, if_true, if_false,
      Reading.crlf, digits, takeWhile_take_crlf (p := isHexDigit) (by decide) hn,
      drop_takeWhile_take_crlf hn, crlf_takeWhile_take hn]
  case case6 c r h₁ h₂ h₃ h₄ h₅ digits =>
    have hc := ne_of_not_break h₂
    have hn : Char.isDigit '\n' = false := by decide
    simp only [crlf_cons hc, escape, h₁, h₂, h₃, h₄, h₅, Bool.false_eq_true, if_true, if_false,
      Reading.crlf, digits, takeWhile_take_crlf (p := Char.isDigit) (by decide) hn,
      drop_takeWhile_take_crlf hn, crlf_takeWhile_take hn]
  case case7 c r h₁ h₂ h₃ h₄ h₅ h₆ digits after close =>
    obtain ⟨rfl, hr⟩ := h₆
    obtain ⟨r, rfl⟩ := List.head?_eq_some_iff.mp hr
    exact escape_braced_crlf r
  case case8 c r h₁ h₂ h₃ h₄ h₅ h₆ =>
    have hc := ne_of_not_break h₂
    have h₇ : ¬ (c = 'u' ∧ (crlf r).head? = some '\x7b') := by
      rwa [head?_crlf (by decide) (by decide)]
    simp only [crlf_cons hc, escape, h₁, h₂, h₃, h₄, h₅, h₇, Bool.false_eq_true, if_false,
      Reading.crlf, crlf_nil]

end Escape

section Bodies

variable {s : List Char}

-- A short literal that is not closed stops in front of the line break, whatever it is.
theorem shortBody_crlf {quote : Char} (hq : isQuote quote) (h : '\r' ∉ s) :
    shortBody quote (crlf s) = (shortBody quote s).crlf := by
  have hfeed : quote ≠ '\n' := by rintro rfl; exact absurd hq (by decide)
  have hreturn : '\r' ≠ quote := by rintro rfl; exact absurd hq (by decide)
  have hn : isOrdinary quote '\n' = false := by simp [isOrdinary, isLineBreak]
  have hr : isOrdinary quote '\r' = false := by simp [isOrdinary, isLineBreak]
  have hplain (s : List Char) :
      crlf (s.takeWhile (isOrdinary quote)) = s.takeWhile (isOrdinary quote) :=
    crlf_of_not_mem (line_feed_not_mem_takeWhile hn s)
  have htake := fun s => (takeWhile_crlf (hr.trans hn.symm) s).trans (hplain s)
  have hdrop := dropWhile_crlf (hr.trans hn.symm)
  have rest_not_mem {s r : List Char} {c : Char} (hs : '\r' ∉ s)
      (hd : s.dropWhile (isOrdinary quote) = c :: r) : '\r' ≠ c ∧ '\r' ∉ r := by
    have hd : '\r' ∉ c :: r := hd ▸ fun hm => hs ((List.dropWhile_sublist _).subset hm)
    simpa using hd
  fun_induction shortBody quote s with
  | case1 s plain hd =>
    rw [shortBody_eq_of_dropWhile_nil (by rw [hdrop, hd, crlf_nil]), htake, Reading.crlf, hplain,
      crlf_nil]
  | case2 s plain r hd =>
    rw [shortBody_eq_of_dropWhile_cons (c := quote) (y := crlf r)
      (by rw [hdrop, hd, crlf_cons hfeed]), htake, Reading.crlf]
    simp [hplain, plain, crlf_cons hfeed]
  | case3 s plain r piece more hd hb ih =>
    have hslash : '\\' ≠ '\n' := by decide
    have hr := (rest_not_mem h hd).2
    have hmore : shortBody quote (crlf (escape r).rest) = more.crlf :=
      ih ((escape_splits r).not_mem_rest hr)
    rw [shortBody_eq_of_dropWhile_cons (c := '\\') (y := crlf r)
      (by rw [hdrop, hd, crlf_cons hslash]), htake, escape_crlf hr]
    simp [hb, Reading.crlf, hplain, plain, crlf_cons hslash, piece, hmore]
  | case4 s plain c r hd hc hb =>
    have hreturn' := (rest_not_mem h hd).1
    obtain rfl : c = '\n' := by
      have hc' := not_ordinary_of_dropWhile hd
      simpa [isOrdinary, isLineBreak, hc, hb, hreturn'.symm] using hc'
    rw [shortBody_eq_of_dropWhile_cons (c := '\r') (y := '\n' :: crlf r) (by rw [hdrop, hd]; rfl),
      htake]
    simp [hreturn, Reading.crlf, hplain, plain]

-- How a long bracket opens does not hang on line ends.
theorem longLevel?_crlf (s : List Char) :
    longLevel? (crlf s) = (longLevel? s).map fun (level, inside) => (level, crlf inside) := by
  have hequals (n : Nat) : crlf (List.replicate n '=') = List.replicate n '=' :=
    crlf_of_not_mem (by simp)
  obtain ⟨n, rfl | ⟨c, r, hc, rfl⟩⟩ := eq_replicate_or_exists s
  case inl =>
    rw [hequals, longLevel?_replicate]
    rfl
  case inr =>
    rw [crlf_append, hequals, longLevel?_replicate_append_cons hc]
    by_cases hfeed : c = '\n'
    case pos =>
      rw [hfeed, crlf_line_feed, longLevel?_replicate_append_cons (by decide)]
      rfl
    case neg =>
      rw [crlf_cons hfeed, longLevel?_replicate_append_cons hc]
      split <;> rfl

-- The line break at the start of a long bracket is one of either kind.
theorem leadingBreak_crlf (h : '\r' ∉ s) : leadingBreak (crlf s) = crlf (leadingBreak s) := by
  cases s with
  | nil => rfl
  | cons c r =>
    obtain ⟨hc, hr⟩ : '\r' ≠ c ∧ '\r' ∉ r := by simpa using h
    by_cases hfeed : c = '\n'
    case pos =>
      have hbreak : leadingBreak ('\n' :: r) = ['\n'] := by
        cases r with
        | nil => rfl
        | cons d r =>
          have hd : d ≠ '\r' := fun hd => hr (hd ▸ List.mem_cons_self)
          simp [leadingBreak, hd]
      rw [hfeed, hbreak]
      rfl
    case neg =>
      have hbreak (r : List Char) : leadingBreak (c :: r) = [] := by
        simp [leadingBreak, hc.symm, hfeed]
      rw [crlf_cons hfeed, hbreak, hbreak, crlf_nil]

section Pattern

variable {pattern : List Char}

theorem isPrefix_crlf_iff (hn : '\n' ∉ pattern) (hr : '\r' ∉ pattern) :
    pattern <+: crlf s ↔ pattern <+: s := by
  induction pattern generalizing s with
  | nil => simp
  | cons d pattern ih =>
    obtain ⟨hdn, hn⟩ : '\n' ≠ d ∧ '\n' ∉ pattern := by simpa using hn
    obtain ⟨hdr, hr⟩ : '\r' ≠ d ∧ '\r' ∉ pattern := by simpa using hr
    cases s with
    | nil => rfl
    | cons c s =>
      by_cases hc : c = '\n'
      case pos => simp [hc, List.cons_prefix_cons, hdn.symm, hdr.symm]
      case neg => rw [crlf_cons hc, List.cons_prefix_cons, List.cons_prefix_cons, ih hn hr]

-- A pattern that holds no line break is found where it was.
theorem breakOn?_crlf (hp : pattern ≠ []) (hn : '\n' ∉ pattern) (hr : '\r' ∉ pattern)
    (s : List Char) :
    breakOn? pattern (crlf s) =
      (breakOn? pattern s).map fun (before, after) => (crlf before, crlf after) := by
  have go (s acc acc' : List Char) (hacc : acc'.reverse = crlf acc.reverse) :
      breakOn?.go pattern (crlf s) acc' =
        (breakOn?.go pattern s acc).map fun (before, after) => (crlf before, crlf after) := by
    induction s generalizing acc acc' with
    | nil => simp [breakOn?.go, hp]
    | cons c s ih =>
      rw [breakOn?.go.eq_def pattern (c :: s), breakOn?.go.eq_def]
      simp only [List.isPrefixOf_iff_prefix, isPrefix_crlf_iff hn hr]
      by_cases hpre : pattern <+: c :: s
      case pos => simp [hpre, hacc, drop_crlf hpre hn]
      case neg =>
        simp only [hpre, if_false]
        by_cases hc : c = '\n'
        case pos =>
          obtain ⟨d, tail, rfl⟩ := List.exists_cons_of_ne_nil hp
          have hd : d ≠ '\n' := fun hd => hn (hd ▸ List.mem_cons_self)
          have hnot : ¬ d :: tail <+: '\n' :: crlf s := by simp [List.cons_prefix_cons, hd]
          rw [hc, crlf_line_feed]
          dsimp only
          rw [breakOn?.go.eq_def]
          dsimp only
          rw [if_neg (mt List.isPrefixOf_iff_prefix.mp hnot)]
          exact ih ('\n' :: acc) ('\n' :: '\r' :: acc') (by simp [hacc])
        case neg =>
          rw [crlf_cons hc]
          exact ih (c :: acc) (c :: acc') (by simp [hacc, crlf_cons hc])
  exact go s [] [] rfl

end Pattern

theorem longBody_crlf (h : '\r' ∉ s) (level : Nat) :
    longBody level (crlf s) =
      { (longBody level s).crlf with value := crlf (longBody level s).value } := by
  have hne : longCloser level ≠ [] := by simp [longCloser]
  have hfeed : '\n' ∉ longCloser level := by simp [longCloser]
  have hreturn : '\r' ∉ longCloser level := by simp [longCloser]
  have hinside : (crlf s).drop (crlf (leadingBreak s)).length =
      crlf (s.drop (leadingBreak s).length) := by
    conv => lhs; rhs; rw [← leadingBreak_append_drop s, crlf_append]
    exact List.drop_left
  have hbreak := breakOn?_crlf hne hfeed hreturn (s.drop (leadingBreak s).length)
  simp only [longBody, leadingBreak_crlf h, hinside, hbreak]
  cases breakOn? (longCloser level) (s.drop (leadingBreak s).length) with
  | none => rfl
  | some split => simp [Reading.crlf, crlf_of_not_mem hfeed]

end Bodies

section Lines

variable {s : List Char}

-- The parts of a text, and the parts of the text with other line ends: they are the same but for
-- white space that the front part takes from the rest.
def PartedAlike (parts parts' : List Char × List Char) : Prop :=
  ∃ blank, (∀ c ∈ blank, isSpace c) ∧ parts'.1 = crlf parts.1 ++ blank ∧
    crlf parts.2 = blank ++ parts'.2

theorem partedAlike_of_eq {parts parts' : List Char × List Char}
    (h : parts' = (crlf parts.1, crlf parts.2)) : PartedAlike parts parts' :=
  ⟨[], by simp, by simp [h], by simp [h]⟩

-- What reads up to the line feed takes the carriage return in front of it.
theorem partedAlike_line (s : List Char) :
    PartedAlike (s.takeWhile (· ≠ '\n'), s.dropWhile (· ≠ '\n'))
      ((crlf s).takeWhile (· ≠ '\n'), (crlf s).dropWhile (· ≠ '\n')) := by
  by_cases hs : '\n' ∈ s
  case neg =>
    have hp : ∀ c ∈ s, decide (c ≠ '\n') := fun c hc => decide_eq_true fun he => hs (he ▸ hc)
    rw [crlf_of_not_mem hs, List.takeWhile_eq_self_iff.mpr hp, List.dropWhile_eq_nil_iff.mpr hp]
    exact partedAlike_of_eq (by simp [crlf_of_not_mem hs])
  case pos =>
    obtain ⟨line, rest, rfl, hline⟩ := List.eq_append_cons_of_mem hs
    have hp : ∀ c ∈ line, decide (c ≠ '\n') := fun c hc => decide_eq_true fun he => hline (he ▸ hc)
    have hp' : ∀ c ∈ line ++ ['\r'], decide (c ≠ '\n') := by simpa [or_imp, forall_and] using hp
    have hends : crlf (line ++ '\n' :: rest) = (line ++ ['\r']) ++ '\n' :: crlf rest := by
      simp [crlf_of_not_mem hline]
    rw [hends, takeWhile_append_cons hp (by simp), dropWhile_append_cons hp (by simp),
      takeWhile_append_cons hp' (by simp), dropWhile_append_cons hp' (by simp)]
    exact ⟨['\r'], by simp [isSpace], by simp [crlf_of_not_mem hline], rfl⟩

theorem partedAlike_comment (h : '\r' ∉ s) : PartedAlike (comment s) (comment (crlf s)) := by
  have hopen : '[' ≠ '\n' := by decide
  rcases comment_cases s with ⟨level, inside, rfl, -⟩ | ⟨hline, -⟩
  case inl =>
    have hinside : '\r' ∉ inside := fun hm => h (by simp [hm])
    have hopener : crlf (longOpener level) = longOpener level :=
      crlf_of_not_mem (by simp [longOpener])
    refine partedAlike_of_eq ?_
    rw [crlf_cons hopen, crlf_append, hopener, comment_long, comment_long,
      longBody_crlf hinside level]
    simp [Reading.crlf, crlf_cons hopen, hopener]
  case inr =>
    have hline' : ∀ r, crlf s = '[' :: r → longLevel? r = none := by
      intro r hr
      cases s with
      | nil => cases hr
      | cons c s =>
        have hc : c ≠ '\n' := by rintro rfl; simp at hr
        rw [crlf_cons hc] at hr
        obtain ⟨rfl, rfl⟩ := List.cons.inj hr
        rw [longLevel?_crlf, hline s rfl]
        rfl
    rw [comment_line hline, comment_line hline']
    exact partedAlike_line s

theorem isTrivia_of_space {blank : List Char} (h : ∀ c ∈ blank, isSpace c) : IsTrivia blank := by
  have := IsTrivia.nil.blank_append h
  rwa [List.append_nil] at this

theorem trivia_crlf (h : '\r' ∉ s) :
    trivia (crlf s) = (crlf (trivia s).1, crlf (trivia s).2) := by
  have hs : isSpace '\r' = isSpace '\n' := by decide
  have hdash : '-' ≠ '\n' := by decide
  fun_induction trivia s with
  | case1 s blank r hd more ih =>
    have hr : '\r' ∉ r := by
      have hr : '\r' ∉ '-' :: '-' :: r := hd ▸ fun hm => h ((List.dropWhile_sublist _).subset hm)
      simpa using hr
    have hd' : (crlf s).dropWhile isSpace = '-' :: '-' :: crlf r := by
      rw [dropWhile_crlf hs, hd, crlf_cons hdash, crlf_cons hdash]
    obtain ⟨taken, htaken, hcomment, hrest⟩ := partedAlike_comment hr
    have hmore := ih fun hm => hr (comment_append r ▸ List.mem_append_right _ hm)
    rw [hrest, (isTrivia_of_space htaken).trivia_append] at hmore
    obtain ⟨hskipped, hleft⟩ := Prod.mk.inj hmore
    rw [trivia_eq_comment hd', hcomment, takeWhile_crlf hs, hleft]
    simp [crlf_cons hdash, more, ← hskipped, blank]
  | case2 s blank hd =>
    have hd' : ∀ r, (crlf s).dropWhile isSpace ≠ '-' :: '-' :: r := by
      intro r hr
      have hpre : ['-', '-'] <+: crlf (s.dropWhile isSpace) := by
        rw [← dropWhile_crlf hs, hr]
        exact ⟨r, rfl⟩
      obtain ⟨r', hr'⟩ := (isPrefix_crlf_iff (by decide) (by decide)).mp hpre
      exact hd r' hr'.symm
    rw [trivia_eq_blank hd', takeWhile_crlf hs, dropWhile_crlf hs]

end Lines

-- A string of a text whose lines end in another way. Other tokens hold no line end.
def Kind.crlf : Kind → Kind
  | .str value => .str (withCrlf value)
  | k => k

section Tokens

variable {first c : Char} {s r : List Char}

theorem numeralTail_crlf (last : Char) (s : List Char) :
    numeralTail last (crlf s) = numeralTail last s := by
  have hn : isNumeralCharacter '\n' = false := by decide
  have hr : isNumeralCharacter '\r' = false := by decide
  have hns : isSign '\n' = false := by decide
  have hrs : isSign '\r' = false := by decide
  induction s generalizing last with
  | nil => rfl
  | cons c s ih =>
    by_cases hc : c = '\n'
    case pos => simp [hc, numeralTail, hn, hr, hns, hrs]
    case neg => rw [crlf_cons hc, numeralTail, numeralTail, ih]

theorem startsWithDigit_crlf (s : List Char) : startsWithDigit (crlf s) = startsWithDigit s := by
  cases s with
  | nil => rfl
  | cons c s =>
    by_cases hc : c = '\n'
    case pos => rw [hc]; rfl
    case neg => rw [crlf_cons hc]; rfl

theorem symbolTail_space (hc : isSpace c) : symbolTail first (c :: s) = [] := by
  have hp : [first, c] ∉ symbolPairs := by simpa using (class_symbolPairs first).space c hc
  have hdot : c ≠ '.' := by rintro rfl; exact absurd hc (by decide)
  simp [symbolTail, hdot, hp]

theorem symbolTail_crlf (first : Char) (s : List Char) :
    symbolTail first (crlf s) = symbolTail first s := by
  cases s with
  | nil => rfl
  | cons c s =>
    by_cases hc : c = '\n'
    case pos => rw [hc, crlf_line_feed, symbolTail_space (by decide), symbolTail_space (by decide)]
    case neg =>
      have hdots : (c :: crlf s).take 2 = ['.', '.'] ↔ (c :: s).take 2 = ['.', '.'] := by
        have hpre : ['.', '.'] <+: crlf (c :: s) ↔ ['.', '.'] <+: c :: s :=
          isPrefix_crlf_iff (by decide) (by decide)
        rw [crlf_cons hc, List.prefix_iff_eq_take, List.prefix_iff_eq_take] at hpre
        exact eq_comm.trans (hpre.trans eq_comm)
      rw [crlf_cons hc, symbolTail, symbolTail]
      by_cases hd : first = '.' ∧ (c :: s).take 2 = ['.', '.']
      case pos =>
        have hd' := And.intro hd.1 (hdots.mpr hd.2)
        rw [if_pos hd, if_pos hd', hd.2, hd'.2]
      case neg =>
        rw [if_neg hd, if_neg fun hd' => hd ⟨hd'.1, hdots.mp hd'.2⟩]
        rfl

-- A token stays what it is, but for the line ends in a long bracket.
theorem token_crlf (hc : c ≠ '\n') (hr : '\r' ∉ r) :
    token c (crlf r) =
      { (token c r).crlf with
        value := if c = '[' then (token c r).value.crlf else (token c r).value } := by
  cases lead c r with
  | short hq =>
    have hopen : c ≠ '[' := by rintro rfl; exact absurd hq (by decide)
    simp only [token_short hq, shortBody_crlf hq hr, Reading.crlf, crlf_cons hc, if_neg hopen]
  | numeral hq hd =>
    have hd' : c.isDigit ∨ (c = '.' ∧ startsWithDigit (crlf r)) := by rwa [startsWithDigit_crlf]
    have htail : '\n' ∉ numeralTail c r := fun hm => ne_line_feed_of_mem_numeralTail hm rfl
    rw [token_numeral hq hd', token_numeral hq hd, numeralTail_crlf,
      drop_crlf (numeralTail_isPrefix c r) htail]
    simp [Reading.crlf, crlf_cons hc, crlf_of_not_mem htail, Kind.crlf]
  | name hs =>
    have hn : isNameCharacter '\n' = false := by decide
    have hp : isNameCharacter '\r' = isNameCharacter '\n' := by decide
    rw [token_name hs, token_name hs, takeWhile_crlf hp, dropWhile_crlf hp,
      crlf_of_not_mem (line_feed_not_mem_takeWhile hn r)]
    simp [Reading.crlf, crlf_cons hc, crlf_of_not_mem (line_feed_not_mem_takeWhile hn r), Kind.crlf]
  | @long level inside hf hl =>
    subst hf
    have hinside : '\r' ∉ inside := by
      rw [← longOpener_append_of_longLevel? hl] at hr
      exact fun hm => hr (List.mem_append_right _ hm)
    have hopener : crlf (longOpener level) = longOpener level :=
      crlf_of_not_mem (by simp [longOpener])
    have hl' : longLevel? (crlf r) = some (level, crlf inside) := by rw [longLevel?_crlf, hl]; rfl
    rw [token_long hl', token_long hl, longBody_crlf hinside]
    simp [Reading.crlf, crlf_cons hc, hopener, Kind.crlf, withCrlf]
  | symbol hq hd hp hn hb =>
    have hp' : c = '.' → startsWithDigit (crlf r) = false := by rwa [startsWithDigit_crlf]
    have hb' : c = '[' → longLevel? (crlf r) = none := fun h => by rw [longLevel?_crlf, hb h]; rfl
    have htail : '\n' ∉ symbolTail c r := fun hm => ne_line_feed_of_mem_symbolTail hm rfl
    rw [(token_symbol hq hd hp' hn hb').1, (token_symbol hq hd hp hn hb).1, symbolTail_crlf,
      drop_crlf (symbolTail_isPrefix c r) htail]
    simp [Reading.crlf, crlf_cons hc, crlf_of_not_mem htail, Kind.crlf]

end Tokens

-- A token of a text, and the token in its place once the lines of the text end in another way. The
-- text of a long bracket is the only one that holds line ends.
structure Token.Converted (s : List Char) (t t' : Token) : Prop where
  start : Placed s t.start t'.start
  stop : Placed s t.stop t'.stop
  kind : t'.kind = if (slice t.start t.stop s).head? = some '[' then t.kind.crlf else t.kind

theorem PartedAlike.lexFrom_eq {parts parts' : List Char × List Char}
    (h : PartedAlike parts parts') :
    lexFrom (size parts'.1) parts'.2 = lexFrom (size (crlf parts.1)) (crlf parts.2) := by
  obtain ⟨blank, hblank, hfront, hrest⟩ := h
  rw [hfront, hrest, (isTrivia_of_space hblank).lexFrom_append, size_append]

theorem converted_lexFrom {s : List Char} (h : '\r' ∉ s) (before : List Char) :
    List.Forall₂ (Token.Converted (before ++ s)) (lexFrom (size before) s)
      (lexFrom (size (crlf before)) (crlf s)) := by
  induction s using lexInduction generalizing before with
  | nil s hs =>
    have hs' : (trivia (crlf s)).2 = [] := by rw [trivia_crlf h, hs, crlf_nil]
    rw [lexFrom_eq_nil hs, lexFrom_eq_nil hs']
    exact .nil
  | cons s c r hs ih =>
    have hc : c ≠ '\n' := by
      rintro rfl
      exact absurd (not_isSpace_of_bare (hs ▸ bare_trivia s)) (by decide)
    have hcr : '\r' ∉ c :: r := fun hm => h (trivia_append s ▸ List.mem_append_right _ (hs ▸ hm))
    have hr : '\r' ∉ r := fun hm => hcr (.tail c hm)
    have hs' : (trivia (crlf s)).2 = c :: crlf r := by rw [trivia_crlf h, hs, crlf_cons hc]
    have hsplit := eq_trivia_token_rest hs
    have hfront : before ++ s =
        before ++ (trivia s).1 ++ ((token c r).text ++ (token c r).rest) := by
      rw [List.append_assoc, hsplit]
    have hback : before ++ s =
        before ++ ((trivia s).1 ++ (token c r).text) ++ (token c r).rest := by
      rw [List.append_assoc, List.append_assoc, hsplit]
    rw [lexFrom_eq_cons hs, lexFrom_eq_cons hs', trivia_crlf h, token_crlf hc hr]
    refine .cons ⟨?_, ?_, ?_⟩ ?_
    case refine_1 => exact ⟨_, _, hfront, by simp, by simp⟩
    case refine_2 =>
      exact ⟨_, _, hback, by simp [Nat.add_assoc], by simp [Reading.crlf, Nat.add_assoc]⟩
    case refine_3 =>
      have hslice := slice_size (before ++ (trivia s).1) (token c r).text (token c r).rest
      rw [← hfront, size_append] at hslice
      rw [hslice, ← cons_tail_token_text]
      simp
    case refine_4 =>
      have hmore := ih ((token_splits c r).not_mem_rest hcr)
        (before ++ ((trivia s).1 ++ (token c r).text))
      rw [← hback] at hmore
      simpa [Reading.crlf, Nat.add_assoc] using hmore

end LuaBundle.Lua

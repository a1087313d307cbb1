import LuaBundle.Proofs.Lua.Verbatim

namespace LuaBundle.Lua

open Text

section Closer

variable {pattern s : List Char}

-- What occurs in a text occurs in it for a first time.
theorem exists_firstAt (h : pattern <:+: s) :
    ∃ before after, s = before ++ (pattern ++ after) ∧ FirstAt pattern before := by
  induction s with
  | nil =>
    obtain rfl := List.infix_nil.mp h
    exact ⟨[], [], rfl, .nil _⟩
  | cons c s ih =>
    by_cases hp : pattern <+: c :: s
    case pos =>
      obtain ⟨after, hafter⟩ := hp
      exact ⟨[], after, hafter.symm, .nil _⟩
    case neg =>
      obtain ⟨before, after, rfl, hfirst⟩ := ih ((List.infix_cons_iff.mp h).resolve_left hp)
      refine ⟨c :: before, after, rfl, hfirst.cons fun hc => hp ?_⟩
      exact hc.trans ⟨after, by simp⟩

-- A line break is no part of a closer.
theorem firstAt_leadingBreak_append {level : Nat} {before : List Char} (s : List Char)
    (h : FirstAt (longCloser level) before) :
    FirstAt (longCloser level) (leadingBreak s ++ before) := by
  have cons {c : Char} {before : List Char} (hc : c ≠ ']')
      (h : FirstAt (longCloser level) before) : FirstAt (longCloser level) (c :: before) :=
    h.cons fun hp => hc (by simpa [longCloser] using (List.cons_prefix_cons.mp hp).1.symm)
  unfold leadingBreak
  split
  · exact cons (by decide) (cons (by decide) h)
  · exact cons (by decide) (cons (by decide) h)
  · exact cons (by decide) h
  · exact cons (by decide) h
  · exact h

theorem longCloses_eq_false_iff {level : Nat} {s : List Char} :
    longCloses level s = false ↔ ¬longCloser level <:+: s := by
  rw [← Bool.not_eq_true, not_iff_not, longCloses_iff]
  constructor
  case mp =>
    rintro ⟨content, rest, h⟩
    have hs := leadingBreak_append_drop s
    rw [← append_of_breakOn? h] at hs
    exact ⟨leadingBreak s ++ content, rest, by simpa using hs⟩
  case mpr =>
    intro h
    obtain ⟨before, after, rfl, hfirst⟩ := exists_firstAt h
    exact longCloses_iff.mp (longCloses_closer hfirst after)

end Closer

-- A line that opens no long bracket.
structure IsLine (line : List Char) : Prop where
  feed : '\n' ∉ line
  opens : ∀ level inside, line ≠ '[' :: (longOpener level ++ inside)

theorem longLevel?_eq_none_iff {s : List Char} :
    (∀ r, s = '[' :: r → longLevel? r = none) ↔
      ∀ level inside, s ≠ '[' :: (longOpener level ++ inside) := by
  constructor
  case mp =>
    rintro h level inside rfl
    simpa [longLevel?_opener_append] using h _ rfl
  case mpr =>
    rintro h r rfl
    by_contra hl
    obtain ⟨⟨level, inside⟩, hl⟩ := Option.ne_none_iff_exists'.mp hl
    exact h level inside (by rw [longOpener_append_of_longLevel? hl])

-- White space and comments, all of which end: a comment in long brackets at the first closer of its
-- level, any other at the end of its line.
inductive IsGap : List Char → Prop
  | nil : IsGap []
  | space {c : Char} {s : List Char} (h : isSpace c) (hs : IsGap s) : IsGap (c :: s)
  | line {line s : List Char} (h : IsLine line) (hs : IsGap s) :
      IsGap ('-' :: '-' :: (line ++ '\n' :: s))
  | long {level : Nat} {body s : List Char} (h : FirstAt (longCloser level) body) (hs : IsGap s) :
      IsGap ('-' :: '-' :: (inBrackets level body ++ s))

theorem IsComment.bracketed_or_line {text : List Char} (h : IsComment text) :
    (∃ level body, FirstAt (longCloser level) body ∧ text = inBrackets level body) ∨
      ∃ line, IsLine line ∧ text = line ++ ['\n'] := by
  cases h with
  | @long level inside h hr =>
    obtain ⟨content, rest, hbreak⟩ := longCloses_iff.mp h
    have hrest : (longBody level inside).rest = rest := by simp only [longBody, hbreak]
    obtain rfl : rest = [] := hrest.symm.trans hr
    have hinside := leadingBreak_append_drop inside
    rw [← append_of_breakOn? hbreak, List.append_nil] at hinside
    refine .inl ⟨level, leadingBreak inside ++ content,
      firstAt_leadingBreak_append _ (firstAt_of_breakOn? hbreak), ?_⟩
    rw [inBrackets, List.append_assoc, hinside]
  | @line line hn hl => exact .inr ⟨line, ⟨hn, longLevel?_eq_none_iff.mp hl⟩, rfl⟩

-- What the lexer skips is white space and comments.
theorem IsTrivia.isGap {s : List Char} (h : IsTrivia s) : IsGap s := by
  induction h with
  | nil => exact .nil
  | space h _ ih => exact .space h ih
  | comment h _ ih =>
    rcases h.bracketed_or_line with ⟨level, body, hfirst, rfl⟩ | ⟨line, hline, rfl⟩
    case inl => exact .long hfirst ih
    case inr => simpa using IsGap.line hline ih

-- A comment behind its `--` that the text ends in: a line without its line feed, or a long bracket
-- without its closer.
inductive IsOpenComment : List Char → Prop
  | line {line : List Char} (h : IsLine line) : IsOpenComment line
  | long {level : Nat} {inside : List Char} (h : ¬longCloser level <:+: inside) :
      IsOpenComment ('[' :: (longOpener level ++ inside))

-- White space and comments at the end of a text, the last of which may be left open.
inductive IsLastGap : List Char → Prop
  | closed {s : List Char} (h : IsGap s) : IsLastGap s
  | opened {s text : List Char} (h : IsGap s) (hc : IsOpenComment text) :
      IsLastGap (s ++ '-' :: '-' :: text)

theorem IsGap.append {s t : List Char} (hs : IsGap s) (ht : IsGap t) : IsGap (s ++ t) := by
  induction hs with
  | nil => exact ht
  | space h _ ih => exact .space h ih
  | line h _ ih => simpa using IsGap.line h ih
  | long h _ ih => simpa using IsGap.long h ih

theorem IsGap.isLastGap_append {s t : List Char} (hs : IsGap s) (ht : IsLastGap t) :
    IsLastGap (s ++ t) := by
  cases ht with
  | closed h => exact .closed (hs.append h)
  | opened h hc =>
    rw [← List.append_assoc]
    exact .opened (hs.append h) hc

-- Behind `--` stands a comment, or one that is left open.
theorem comment_splits (r : List Char) :
    (∃ text rest, r = text ++ rest ∧ IsComment text) ∨ IsOpenComment r := by
  rcases comment_cases r with ⟨level, inside, rfl, -⟩ | ⟨hline, -⟩
  case inl =>
    cases hc : longCloses level inside with
    | true =>
      refine .inl ⟨_, (longBody level inside).rest, ?_, isComment_of_closes hc⟩
      have hs := longBody_splits level inside
      rw [Reading.Splits] at hs
      simp [hs]
    | false => exact .inr (.long (longCloses_eq_false_iff.mp hc))
  case inr =>
    by_cases hr : '\n' ∈ r
    case pos =>
      obtain ⟨line, rest, rfl, hn⟩ := List.eq_append_cons_of_mem hr
      refine .inl ⟨line ++ ['\n'], rest, by simp, .line hn fun r hr => ?_⟩
      exact longLevel?_append_line_feed_eq_none.mp (hline (r ++ '\n' :: rest) (by rw [hr]; rfl))
    case neg => exact .inr (.line ⟨hr, longLevel?_eq_none_iff.mp hline⟩)

-- A text without tokens is white space and comments.
theorem isLastGap_of_trivia_eq_nil {s : List Char} (h : (trivia s).2 = []) : IsLastGap s := by
  have hblank := List.takeWhile_append_dropWhile (p := isSpace) (l := s)
  have hspaces : IsTrivia (s.takeWhile isSpace ++ []) := .blank_append (spaces_takeWhile s) .nil
  rw [List.append_nil] at hspaces
  by_cases hd : ∃ r, s.dropWhile isSpace = '-' :: '-' :: r
  case pos =>
    obtain ⟨r, hd⟩ := hd
    rw [hd] at hblank
    rcases comment_splits r with ⟨text, rest, rfl, hc⟩ | hopen
    case inl =>
      have hclosed : IsTrivia ('-' :: '-' :: text) := by simpa using IsTrivia.comment hc .nil
      have htext := hclosed.blank_append (spaces_takeWhile s)
      have hs : (s.takeWhile isSpace ++ '-' :: '-' :: text) ++ rest = s := by simpa using hblank
      rw [← hs, htext.trivia_append] at h
      have hlt : rest.length < s.length := by
        rw [← hs]
        simp
        omega
      rw [← hs]
      exact htext.isGap.isLastGap_append (isLastGap_of_trivia_eq_nil h)
    case inr => exact hblank ▸ .opened hspaces.isGap hopen
  case neg =>
    rw [trivia_eq_blank (not_exists.mp hd)] at h
    dsimp only at h
    rw [h, List.append_nil] at hblank
    exact hblank ▸ .closed hspaces.isGap
termination_by s.length

-- Tokens laid out in a text that starts at the byte offset `n`: in front of each of them and behind
-- the last there are white space and comments, and nothing else.
inductive Laid : Nat → List Char → List Token → Prop
  | last {n : Nat} {gap : List Char} (h : IsLastGap gap) : Laid n gap []
  | token {n : Nat} {gap text rest : List Char} {t : Token} {later : List Token}
      (hgap : IsGap gap) (htext : text ≠ []) (hstart : t.start = n + size gap)
      (hstop : t.stop = t.start + size text) (hlater : Laid t.stop rest later) :
      Laid n (gap ++ (text ++ rest)) (t :: later)

theorem laid_lexFrom (n : Nat) (s : List Char) : Laid n s (lexFrom n s) := by
  induction s using lexInduction generalizing n with
  | nil s hs =>
    rw [lexFrom_eq_nil hs]
    exact .last (isLastGap_of_trivia_eq_nil hs)
  | cons s c r hs ih =>
    have hgap : IsTrivia (trivia s).1 := isTrivia_trivia_of_ne_nil (by simp [hs])
    have hs' := eq_trivia_token_rest hs
    rw [lexFrom_eq_cons hs]
    conv => arg 2; rw [← hs']
    exact .token hgap.isGap (token_text_ne_nil c r) rfl rfl (ih _)

-- Every token takes a byte at least.
theorem Laid.length_le {n : Nat} {s : List Char} {tokens : List Token} (h : Laid n s tokens) :
    tokens.length ≤ size s := by
  induction h with
  | last => exact Nat.zero_le _
  | token _ htext _ _ _ ih =>
    have := size_pos_of_ne_nil htext
    simp only [List.length_cons, size_append]
    omega

end LuaBundle.Lua

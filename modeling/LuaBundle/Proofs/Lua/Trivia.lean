import Mathlib.Data.List.TakeWhile
import LuaBundle.Lua.Trivia
import LuaBundle.Proofs.Lua.LongBracket

namespace LuaBundle.Lua

-- A comment behind its `--` that ends where it ends, whatever follows: a closed long bracket, or a
-- line with its line feed that opens no long bracket.
inductive IsComment : List Char → Prop
  | long {level : Nat} {inside : List Char} (h : longCloses level inside)
      (hr : (longBody level inside).rest = []) : IsComment ('[' :: (longOpener level ++ inside))
  | line {line : List Char} (hn : '\n' ∉ line)
      (hl : ∀ r, line = '[' :: r → longLevel? r = none) : IsComment (line ++ ['\n'])

-- White space and comments that end where they end, whatever follows.
inductive IsTrivia : List Char → Prop
  | nil : IsTrivia []
  | space {c : Char} {s : List Char} (h : isSpace c) (hs : IsTrivia s) : IsTrivia (c :: s)
  | comment {text s : List Char} (h : IsComment text) (hs : IsTrivia s) :
      IsTrivia ('-' :: '-' :: (text ++ s))

section Equations

variable {s r : List Char}

theorem trivia_eq_comment (h : s.dropWhile isSpace = '-' :: '-' :: r) :
    trivia s =
      (s.takeWhile isSpace ++ '-' :: '-' :: ((comment r).1 ++ (trivia (comment r).2).1),
        (trivia (comment r).2).2) := by
  rw [trivia]
  split
  case h_1 r' h' =>
    obtain rfl : r' = r := by simpa using h'.symm.trans h
    rfl
  case h_2 h' => exact absurd h (h' r)

theorem trivia_eq_blank (h : ∀ r, s.dropWhile isSpace ≠ '-' :: '-' :: r) :
    trivia s = (s.takeWhile isSpace, s.dropWhile isSpace) := by
  rw [trivia]
  split
  case h_1 r h' => exact absurd h' (h r)
  case h_2 => rfl

theorem trivia_cons_space {c : Char} (h : isSpace c) :
    trivia (c :: s) = (c :: (trivia s).1, (trivia s).2) := by
  have ht := List.takeWhile_cons_of_pos (l := s) h
  have hd := List.dropWhile_cons_of_pos (l := s) h
  by_cases hc : ∃ r, s.dropWhile isSpace = '-' :: '-' :: r
  case pos =>
    obtain ⟨r, hr⟩ := hc
    rw [trivia_eq_comment hr, trivia_eq_comment (hd.trans hr), ht, List.cons_append]
  case neg =>
    have hc := not_exists.mp hc
    rw [trivia_eq_blank hc, trivia_eq_blank (hd ▸ hc), ht, hd]

theorem trivia_cons_comment :
    trivia ('-' :: '-' :: s) =
      ('-' :: '-' :: ((comment s).1 ++ (trivia (comment s).2).1), (trivia (comment s).2).2) :=
  trivia_eq_comment rfl

-- A text that starts with neither white space nor a comment.
def Bare (s : List Char) : Prop :=
  (s.head?.all fun c => !isSpace c) ∧ s.take 2 ≠ ['-', '-']

theorem trivia_of_bare (h : Bare s) : trivia s = ([], s) := by
  have hd : s.dropWhile isSpace = s := by
    cases s with
    | nil => rfl
    | cons c r => exact List.dropWhile_cons_of_neg (by simpa using h.1)
  have ht : s.takeWhile isSpace = [] := by
    have := List.takeWhile_append_dropWhile (p := isSpace) (l := s)
    rw [hd] at this
    exact List.append_left_eq_self.mp this
  rw [trivia_eq_blank, hd, ht]
  rintro r hr
  exact h.2 (by rw [← hd, hr]; rfl)

@[simp]
theorem trivia_nil : trivia [] = ([], []) :=
  trivia_of_bare ⟨rfl, by simp⟩

theorem bare_trivia (s : List Char) : Bare (trivia s).2 := by
  fun_induction trivia s with
  | case1 s blank r h more ih => exact ih
  | case2 s blank hc =>
    refine ⟨?_, fun ht => ?_⟩
    case refine_1 =>
      cases hd : s.dropWhile isSpace with
      | nil => rfl
      | cons c r =>
        have := List.head_dropWhile_not isSpace (l := s) (by simp [hd])
        simpa [hd] using this
    case refine_2 =>
      obtain ⟨r, hr⟩ : ∃ r, s.dropWhile isSpace = '-' :: '-' :: r :=
        ⟨_, by rw [← List.take_append_drop 2 (s.dropWhile isSpace), ht]; rfl⟩
      exact hc r hr

end Equations

section Comment

variable {s r y : List Char}

theorem comment_long (level : Nat) (inside : List Char) :
    comment ('[' :: (longOpener level ++ inside)) =
      ('[' :: (longOpener level ++ (longBody level inside).text), (longBody level inside).rest) := by
  simp only [comment, longLevel?_opener_append]

theorem comment_line (h : ∀ r, s = '[' :: r → longLevel? r = none) :
    comment s = (s.takeWhile (· ≠ '\n'), s.dropWhile (· ≠ '\n')) := by
  unfold comment
  split
  case h_1 r => rw [h r rfl]
  case h_2 => rfl

theorem longLevel?_append_line_feed_eq_none :
    longLevel? (r ++ '\n' :: y) = none ↔ longLevel? r = none := by
  have hn : longLevel? ('\n' :: y) = none := by simp [longLevel?]
  have h₁ := longLevel?_isSome_append r (x := []) (y := '\n' :: y) (by simp [hn])
  have h₂ := longLevel?_isSome_append r (x := '\n' :: y) (y := []) (by simp [longLevel?])
  rw [List.append_nil] at h₁ h₂
  rw [← Option.isNone_iff_eq_none, ← Option.isNone_iff_eq_none, ← Option.not_isSome,
    ← Option.not_isSome]
  grind

-- What follows a line does not make it open a long bracket.
theorem longLevel?_line_append {line : List Char} (hl : ∀ r, line = '[' :: r → longLevel? r = none)
    (y : List Char) : ∀ r, line ++ '\n' :: y = '[' :: r → longLevel? r = none := by
  intro r hr
  cases line with
  | nil => simp at hr
  | cons d line =>
    obtain ⟨rfl, rfl⟩ := List.cons.inj hr
    exact longLevel?_append_line_feed_eq_none.mpr (hl line rfl)

theorem comment_append_line_feed {line : List Char} (hn : '\n' ∉ line)
    (hl : ∀ r, line = '[' :: r → longLevel? r = none) (y : List Char) :
    comment (line ++ '\n' :: y) = (line, '\n' :: y) := by
  have hp : ∀ d ∈ line, decide (d ≠ '\n') := fun d hd => decide_eq_true fun he => hn (he ▸ hd)
  rw [comment_line (longLevel?_line_append hl y), takeWhile_append_cons hp (by simp),
    dropWhile_append_cons hp (by simp)]

theorem comment_of_not_mem {line : List Char} (hn : '\n' ∉ line)
    (hl : ∀ r, line = '[' :: r → longLevel? r = none) : comment line = (line, []) := by
  have hp : ∀ d ∈ line, decide (d ≠ '\n') := fun d hd => decide_eq_true fun he => hn (he ▸ hd)
  rw [comment_line hl, List.takeWhile_eq_self_iff.mpr hp, List.dropWhile_eq_nil_iff.mpr hp]

theorem IsComment.trivia_append {text : List Char} (h : IsComment text) (y : List Char) :
    trivia ('-' :: '-' :: (text ++ y)) =
      ('-' :: '-' :: (text ++ (trivia y).1), (trivia y).2) := by
  rw [trivia_cons_comment]
  cases h with
  | @long level inside h hr =>
    have hb := longBody_append h y
    rw [longBody_text_eq hr] at hb
    simp [comment_long, hb, longBody_text_eq hr]
  | @line line hn hl =>
    rw [List.append_assoc, List.singleton_append, comment_append_line_feed hn hl,
      trivia_cons_space (by decide)]
    simp

end Comment

namespace IsTrivia

variable {t s : List Char}

theorem trivia_append (h : IsTrivia t) (y : List Char) :
    trivia (t ++ y) = (t ++ (trivia y).1, (trivia y).2) := by
  induction h with
  | nil => rfl
  | space h _ ih => rw [List.cons_append, trivia_cons_space h, ih]; rfl
  | comment h _ ih =>
    rw [List.cons_append, List.cons_append, List.append_assoc, h.trivia_append, ih]
    simp

theorem blank_append {blank : List Char} (hb : ∀ c ∈ blank, isSpace c) (h : IsTrivia s) :
    IsTrivia (blank ++ s) := by
  induction blank with
  | nil => exact h
  | cons c blank ih => exact .space (hb c List.mem_cons_self) (ih fun d hd => hb d (.tail _ hd))

theorem of_cons_space {c : Char} (h : IsTrivia (c :: s)) (hc : isSpace c) : IsTrivia s := by
  cases h with
  | space _ hs => exact hs
  | comment => simp [isSpace] at hc

end IsTrivia

-- Whether the comment behind a `--` does not run into the end of the text as a long one.
def commentCloses (s : List Char) : Bool :=
  match s with
  | '[' :: r =>
    match longLevel? r with
    | some (level, body) => longCloses level body
    | none => true
  | _ => true

-- Whether the white space and comments in front of a token run into the end of the text inside a
-- long comment.
def triviaRunsOut (s : List Char) : Bool :=
  match _h : s.dropWhile isSpace with
  | '-' :: '-' :: r => !commentCloses r || triviaRunsOut (comment r).2
  | _ => false
termination_by s.length
decreasing_by
  have h₁ := length_comment_le r
  have h₂ := (List.dropWhile_sublist (l := s) isSpace).length_le
  simp only [_h, List.length_cons] at h₂
  omega

-- A comment is a long bracket, closed or not, or the rest of its line.
theorem comment_cases (s : List Char) :
    (∃ level inside, s = '[' :: (longOpener level ++ inside) ∧
      commentCloses s = longCloses level inside) ∨
    ((∀ r, s = '[' :: r → longLevel? r = none) ∧ commentCloses s) := by
  fun_cases commentCloses s
  case case1 r level body h =>
    exact .inl ⟨level, body, by rw [longOpener_append_of_longLevel? h], rfl⟩
  case case2 r h => exact .inr ⟨fun r' hr => by simp_all, rfl⟩
  case case3 h => exact .inr ⟨fun r hr => absurd hr (h r), rfl⟩

theorem commentCloses_line {line : List Char} (hl : ∀ r, line = '[' :: r → longLevel? r = none) :
    commentCloses line := by
  rcases comment_cases line with ⟨level, inside, rfl, -⟩ | ⟨-, h⟩
  case inl => simp [longLevel?_opener_append] at hl
  case inr => exact h

theorem triviaRunsOut_eq_comment {s r : List Char} (h : s.dropWhile isSpace = '-' :: '-' :: r) :
    triviaRunsOut s = (!commentCloses r || triviaRunsOut (comment r).2) := by
  rw [triviaRunsOut]
  split
  case h_1 r' h' =>
    obtain rfl : r' = r := by simpa using h'.symm.trans h
    rfl
  case h_2 h' => exact absurd h (h' r)

theorem triviaRunsOut_eq_blank {s : List Char} (h : ∀ r, s.dropWhile isSpace ≠ '-' :: '-' :: r) :
    triviaRunsOut s = false := by
  rw [triviaRunsOut]
  split
  case h_1 r h' => exact absurd h' (h r)
  case h_2 => rfl

theorem triviaRunsOut_nil : triviaRunsOut [] = false :=
  triviaRunsOut_eq_blank (by simp)

theorem triviaRunsOut_cons_space {c : Char} {s : List Char} (h : isSpace c) :
    triviaRunsOut (c :: s) = triviaRunsOut s := by
  have hd := List.dropWhile_cons_of_pos (l := s) h
  by_cases hc : ∃ r, s.dropWhile isSpace = '-' :: '-' :: r
  case pos =>
    obtain ⟨r, hr⟩ := hc
    rw [triviaRunsOut_eq_comment hr, triviaRunsOut_eq_comment (hd.trans hr)]
  case neg =>
    have hc := not_exists.mp hc
    rw [triviaRunsOut_eq_blank hc, triviaRunsOut_eq_blank (hd ▸ hc)]

theorem IsComment.triviaRunsOut_append {text : List Char} (h : IsComment text) (y : List Char) :
    triviaRunsOut ('-' :: '-' :: (text ++ y)) = triviaRunsOut y := by
  rw [triviaRunsOut_eq_comment (r := text ++ y) rfl]
  cases h with
  | @long level inside h hr =>
    have hb := longBody_append h y
    have hc := longCloses_append h y
    rw [longBody_text_eq hr] at hb hc
    rw [List.cons_append, List.append_assoc, comment_long, hb]
    simp [commentCloses, longLevel?_opener_append, hc]
  | @line line hn hl =>
    rw [List.append_assoc, List.singleton_append, comment_append_line_feed hn hl,
      triviaRunsOut_cons_space (by decide), commentCloses_line (longLevel?_line_append hl y)]
    rfl

theorem IsTrivia.triviaRunsOut_append {t : List Char} (h : IsTrivia t) (y : List Char) :
    triviaRunsOut (t ++ y) = triviaRunsOut y := by
  induction h with
  | nil => rfl
  | space h _ ih => rw [List.cons_append, triviaRunsOut_cons_space h, ih]
  | comment h _ ih =>
    rw [List.cons_append, List.cons_append, List.append_assoc, h.triviaRunsOut_append, ih]

theorem isTrivia_line {line : List Char} (hn : '\n' ∉ line) (hl : line.head? ≠ some '[') :
    IsTrivia ('-' :: '-' :: (line ++ ['\n'])) := by
  have hc : IsComment (line ++ ['\n']) := .line hn fun r hr => absurd (by simp [hr]) hl
  simpa using IsTrivia.comment hc .nil

-- A comment of one line that the text ends in.
theorem trivia_line {line : List Char} (hn : '\n' ∉ line)
    (hl : ∀ r, line = '[' :: r → longLevel? r = none) :
    (trivia ('-' :: '-' :: line)).2 = [] ∧ triviaRunsOut ('-' :: '-' :: line) = false := by
  rw [trivia_cons_comment, triviaRunsOut_eq_comment (r := line) rfl, comment_of_not_mem hn hl,
    trivia_nil, commentCloses_line hl, triviaRunsOut_nil]
  exact ⟨rfl, rfl⟩

theorem isComment_of_closes {level : Nat} {inside : List Char} (h : longCloses level inside) :
    IsComment ('[' :: (longOpener level ++ (longBody level inside).text)) := by
  have hc := longCloses_append h []
  have hb := longBody_append h []
  rw [List.append_nil] at hc hb
  exact .long hc (by rw [hb])

theorem spaces_takeWhile (s : List Char) : ∀ c ∈ s.takeWhile isSpace, isSpace c :=
  fun _ => List.mem_takeWhile_imp

-- A text whose last line is empty.
def EndsLine (s : List Char) : Prop :=
  ∀ c, s.getLast? = some c → c = '\n'

theorem endsLine_concat (s : List Char) : EndsLine (s ++ ['\n']) := by
  intro c hc
  simpa using hc.symm

theorem EndsLine.of_append {s t : List Char} (h : EndsLine (s ++ t)) : EndsLine t := fun c hc =>
  h c (by rw [List.getLast?_append, hc]; rfl)

theorem EndsLine.mem {s : List Char} (h : EndsLine s) (hs : s ≠ []) : '\n' ∈ s :=
  h _ (List.getLast?_eq_some_getLast hs) ▸ List.getLast_mem hs

-- The text in front of a token is trivia, and so is the end of a text, once its last line is ended,
-- unless a comment is open.
theorem isTrivia_trivia_append {s last : List Char} (hc : triviaRunsOut s = false)
    (hl : ((trivia s).2 ≠ [] ∨ EndsLine s) ∧ last = [] ∨ last = ['\n']) :
    IsTrivia ((trivia s).1 ++ last) := by
  have hlast : IsTrivia last := by
    rcases hl with ⟨-, rfl⟩ | rfl
    case inl => exact .nil
    case inr => exact .space (by decide) .nil
  fun_induction trivia s with
  | case2 s blank hd => exact .blank_append (spaces_takeWhile s) hlast
  | case1 s blank r h more ih =>
    rw [triviaRunsOut_eq_comment h, Bool.or_eq_false_iff, Bool.not_eq_false'] at hc
    have hs : (blank ++ '-' :: '-' :: (comment r).1) ++ (comment r).2 = s := by
      have := List.takeWhile_append_dropWhile (p := isSpace) (l := s)
      rw [h] at this
      simpa [blank, comment_append] using this
    rw [← hs] at hl
    have ht : IsTrivia (more.1 ++ last) :=
      ih hc.2 (hl.imp_left (.imp_left (.imp_right EndsLine.of_append)))
    rw [List.append_assoc, List.cons_append, List.cons_append, List.append_assoc]
    refine .blank_append (spaces_takeWhile s) ?_
    rcases comment_cases r with ⟨level, inside, rfl, hlong⟩ | ⟨hline, -⟩
    case inl =>
      rw [comment_long]
      exact .comment (isComment_of_closes (hlong ▸ hc.1)) ht
    case inr =>
      by_cases hr : '\n' ∈ r
      case pos =>
        obtain ⟨line, rest, rfl, hn⟩ := List.eq_append_cons_of_mem hr
        have hopen : ∀ r, line = '[' :: r → longLevel? r = none := fun r hr =>
          longLevel?_append_line_feed_eq_none.mp (hline (r ++ '\n' :: rest) (by rw [hr]; rfl))
        have hcomment := comment_append_line_feed hn hopen rest
        simp only [more, hcomment, trivia_cons_space (c := '\n') (by decide)] at ht ⊢
        have := IsTrivia.comment (.line hn hopen) (ht.of_cons_space (by decide))
        simpa using this
      case neg =>
        -- The comment is at the end of the text, which is not the end of a line.
        simp only [more, comment_of_not_mem hr hline, trivia_nil, List.append_nil,
          List.nil_append] at hl ⊢
        rcases hl with ⟨hl, -⟩ | rfl
        case inl =>
          have hends : EndsLine ('-' :: '-' :: r) := (hl.resolve_left (by simp)).of_append
          simpa [hr] using hends.mem (by simp)
        case inr =>
          have := IsTrivia.comment (.line hr hline) .nil
          simpa using this

theorem isTrivia_trivia {s : List Char} (hc : triviaRunsOut s = false)
    (hl : (trivia s).2 ≠ [] ∨ EndsLine s) : IsTrivia (trivia s).1 := by
  have := isTrivia_trivia_append hc (.inl ⟨hl, rfl⟩)
  rwa [List.append_nil] at this

theorem trivia_eq_nil_of_runsOut {s : List Char} (h : triviaRunsOut s) : (trivia s).2 = [] := by
  fun_induction trivia s with
  | case2 s blank hd => simp [triviaRunsOut_eq_blank hd] at h
  | case1 s blank r hd more ih =>
    rw [triviaRunsOut_eq_comment hd] at h
    cases hc : commentCloses r with
    | true => exact ih (by simpa [hc] using h)
    | false =>
      rcases comment_cases r with ⟨level, inside, rfl, hlong⟩ | ⟨-, hline⟩
      case inl =>
        simp [more, comment_long, longBody_rest_eq_nil (hlong ▸ hc)]
      case inr => simp [hc] at hline

theorem isTrivia_trivia_of_ne_nil {s : List Char} (h : (trivia s).2 ≠ []) :
    IsTrivia (trivia s).1 :=
  isTrivia_trivia (Bool.eq_false_iff.mpr (mt trivia_eq_nil_of_runsOut h)) (.inl h)

end LuaBundle.Lua

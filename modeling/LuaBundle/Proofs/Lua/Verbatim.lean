import LuaBundle.Proofs.Lua.Places

namespace LuaBundle.Lua

open Text

variable {level : Nat} {body y : List Char}

-- A text in long brackets.
def inBrackets (level : Nat) (body : List Char) : List Char :=
  '[' :: (longOpener level ++ (body ++ longCloser level))

-- A text without the line break that it starts with, if it does.
def afterBreak : List Char → List Char
  | '\r' :: '\n' :: s => s
  | '\n' :: '\r' :: s => s
  | '\r' :: s => s
  | '\n' :: s => s
  | s => s

theorem drop_leadingBreak (s : List Char) : s.drop (leadingBreak s).length = afterBreak s := by
  unfold leadingBreak afterBreak
  split <;> simp_all

section Body

-- A character that is no line break does not join one in front of it.
theorem leadingBreak_append_of_ne {c : Char} (hc : isLineBreak c = false) (s y : List Char) :
    leadingBreak (s ++ c :: y) = leadingBreak s := by
  obtain ⟨hn, hr⟩ : c ≠ '\n' ∧ c ≠ '\r' := by simpa [isLineBreak] using hc
  fun_cases leadingBreak s
  case case1 => rfl
  case case2 => rfl
  case case3 tail h =>
    cases tail with
    | nil => simp [leadingBreak, hn]
    | cons d tail =>
      have hd : d ≠ '\n' := fun hd => h tail (hd ▸ rfl)
      simp [leadingBreak, hd]
  case case4 tail h =>
    cases tail with
    | nil => simp [leadingBreak, hr]
    | cons d tail =>
      have hd : d ≠ '\r' := fun hd => h tail (hd ▸ rfl)
      simp [leadingBreak, hd]
  case case5 h₁ h₂ h₃ h₄ =>
    cases s with
    | nil => simp [leadingBreak, hn, hr]
    | cons d s =>
      have hr : d ≠ '\r' := fun hd => h₃ s (hd ▸ rfl)
      have hn : d ≠ '\n' := fun hd => h₄ s (hd ▸ rfl)
      simp [leadingBreak, hn, hr]

theorem leadingBreak_append_closer (level : Nat) (body y : List Char) :
    leadingBreak (body ++ (longCloser level ++ y)) = leadingBreak body :=
  leadingBreak_append_of_ne (by decide) _ _

theorem FirstAt.of_append {pattern before after : List Char}
    (h : FirstAt pattern (before ++ after)) :
    FirstAt pattern after := by
  induction before with
  | nil => exact h
  | cons c before ih => exact ih h.tail

theorem leadingBreak_append_afterBreak (s : List Char) : leadingBreak s ++ afterBreak s = s := by
  rw [← drop_leadingBreak, leadingBreak_append_drop]

theorem drop_leadingBreak_append (s y : List Char) :
    (s ++ y).drop (leadingBreak s).length = afterBreak s ++ y := by
  have hle : (leadingBreak s).length ≤ s.length := by
    conv => rhs; rw [← leadingBreak_append_afterBreak s]
    simp
  rw [List.drop_append_of_le_length hle, drop_leadingBreak]

-- A text in front of its first closer is read up to there, but for a line break that it starts
-- with.
theorem breakOn?_closer (h : FirstAt (longCloser level) body) (y : List Char) :
    breakOn? (longCloser level)
        ((body ++ (longCloser level ++ y)).drop (leadingBreak body).length) =
      some (afterBreak body, y) := by
  have hfirst : FirstAt (longCloser level) (afterBreak body) :=
    .of_append (leadingBreak_append_afterBreak body ▸ h)
  rw [drop_leadingBreak_append, breakOn?_append hfirst]

theorem longCloses_closer (h : FirstAt (longCloser level) body) (y : List Char) :
    longCloses level (body ++ (longCloser level ++ y)) := by
  rw [longCloses_iff, leadingBreak_append_closer]
  exact ⟨_, _, breakOn?_closer h y⟩

theorem longBody_closer (h : FirstAt (longCloser level) body) (y : List Char) :
    longBody level (body ++ (longCloser level ++ y)) =
      ⟨body ++ longCloser level, afterBreak body, y⟩ := by
  have hread := breakOn?_closer h y
  have hbody := leadingBreak_append_afterBreak body
  simp only [longBody, leadingBreak_append_closer, hread]
  rw [← List.append_assoc, hbody]

end Body

section Token

theorem inBrackets_append (level : Nat) (body y : List Char) :
    inBrackets level body ++ y =
      '[' :: (longOpener level ++ (body ++ (longCloser level ++ y))) := by
  simp [inBrackets]

-- Behind a bracket stands a bracket or an equals sign.
theorem bare_inBrackets (level : Nat) (body y : List Char) : Bare (inBrackets level body ++ y) :=
  ⟨by simp [inBrackets_append, isSpace], by simp [inBrackets_append]⟩

theorem begins_inBrackets (h : FirstAt (longCloser level) body) (y : List Char) :
    Begins (inBrackets level body ++ y) (.str (String.ofList (afterBreak body))) y := by
  have hlevel := longLevel?_opener_append level (body ++ (longCloser level ++ y))
  have hbare := bare_inBrackets level body y
  rw [inBrackets_append] at hbare ⊢
  refine .of_bare hbare ?_ ?_ ?_
  · rw [token_long hlevel, longBody_closer h]
  · rw [token_long hlevel, longBody_closer h]
  · rw [tokenCloses_long hlevel]
    exact longCloses_closer h y

theorem isTrivia_inBrackets (h : FirstAt (longCloser level) body) :
    IsTrivia ('-' :: '-' :: inBrackets level body) := by
  have hcloses := longCloses_closer h []
  have hread := longBody_closer h []
  rw [List.append_nil] at hcloses hread
  have hcomment : IsComment (inBrackets level body) := .long hcloses (by rw [hread])
  simpa using IsTrivia.comment hcomment .nil

end Token

-- A text in long brackets is read as it stands, whatever it holds: as one string, but for a line
-- break that it starts with, and behind two dashes as nothing. What follows is read as if it stood
-- on a line of its own.
theorem lex_inBrackets_append {body : String} (h : FirstAt (longCloser level) body.toList)
    (rest : String) :
    let literal := inBrackets level body.toList
    lex (String.ofList literal ++ rest) =
        ⟨.str (String.ofList (afterBreak body.toList)), 0, size literal⟩ ::
          (lex ("\n" ++ rest)).map (Token.shift (size literal - 1)) ∧
      lex ("--" ++ String.ofList literal ++ rest) =
        (lex ("\n" ++ rest)).map (Token.shift (size literal + 1)) := by
  intro literal
  have hc : ("--" ++ String.ofList literal ++ rest).toList =
      '-' :: '-' :: literal ++ rest.toList := by simp
  have hcsize : 1 + (size literal + 1) = size ('-' :: '-' :: literal) := by
    have hdash : '-'.utf8Size = 1 := by decide
    simp only [size_cons, hdash]
    omega
  constructor
  · exact (begins_inBrackets h rest.toList).lex_append
      (bare_inBrackets level body.toList rest.toList)
      (preamble_cons (by decide) (by decide) _) (List.cons_ne_nil _ _)
  · rw [lex, hc, List.cons_append, preamble_cons (by decide) (by decide), ← List.cons_append,
      lex_line_feed_append, ← lexFrom_add, hcsize]
    dsimp only [size_nil]
    rw [(isTrivia_inBrackets h).lexFrom_append, Nat.zero_add]

-- Brackets of other levels, a comment and a call.
def crowdedBody : String :=
  "\r\n]] --[[é\nrequire'a']==]"

theorem lex_inBrackets_append_crowded :
    FirstAt (longCloser 1) crowdedBody.toList ∧
      lex (String.ofList (inBrackets 1 crowdedBody.toList) ++ "require'b'") =
        [⟨.str "]] --[[é\nrequire'a']==]", 0, 32⟩, ⟨.name "require", 32, 39⟩, ⟨.str "b", 39, 42⟩] ∧
      lex ("--" ++ String.ofList (inBrackets 1 crowdedBody.toList) ++ "require'b'") =
        [⟨.name "require", 34, 41⟩, ⟨.str "b", 41, 44⟩] := by
  have hbreak : breakOn? (longCloser 1) (crowdedBody.toList ++ longCloser 1) =
      some (crowdedBody.toList, []) := by decide +kernel
  have hfirst := firstAt_of_breakOn? hbreak
  obtain ⟨hstring, hcomment⟩ := lex_inBrackets_append hfirst "require'b'"
  exact ⟨hfirst, hstring.trans (by decide +kernel), hcomment.trans (by decide +kernel)⟩

end LuaBundle.Lua

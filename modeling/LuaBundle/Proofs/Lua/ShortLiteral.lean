import Mathlib.Data.List.TakeWhile
import LuaBundle.Lua.ShortLiteral
import LuaBundle.Proofs.Lua.LongBracket

namespace LuaBundle.Lua

section Lookahead

variable {s t x y : List Char}

theorem takeWhile_append_of_head? {p : Char → Bool} (ht : ∀ c ∈ t, p c)
    (hy : y.head?.all fun c => !p c) : (t ++ y).takeWhile p = t := by
  rw [List.takeWhile_append_of_pos ht]
  cases y with
  | nil => simp
  | cons c y => rw [List.takeWhile_cons_of_neg (by simpa using hy), List.append_nil]

theorem dropWhile_append_of_head? {p : Char → Bool} (ht : ∀ c ∈ t, p c)
    (hy : y.head?.all fun c => !p c) : (t ++ y).dropWhile p = y := by
  rw [List.dropWhile_append_of_pos ht]
  cases y with
  | nil => rfl
  | cons c y => rw [List.dropWhile_cons_of_neg (by simpa using hy)]

theorem head?_dropWhile_all (p : Char → Bool) (s : List Char) :
    (s.dropWhile p).head?.all fun c => !p c := by
  cases hd : s.dropWhile p with
  | nil => rfl
  | cons c r =>
    have := List.head_dropWhile_not p (l := s) (by simp [hd])
    simpa [hd] using this

-- Reading at most `n` characters of a class looks one character ahead at most.
theorem takeWhile_take_append {p : Char → Bool} {n : Nat}
    (hy : y.head? = (s.drop ((s.take n).takeWhile p).length).head?) :
    (((s.take n).takeWhile p ++ y).take n).takeWhile p = (s.take n).takeWhile p := by
  induction s generalizing n with
  | nil =>
    obtain rfl : y = [] := by simpa using hy
    simp
  | cons c s ih =>
    cases n with
    | zero => simp
    | succ n =>
      by_cases hc : p c
      case pos =>
        simp only [List.take_succ_cons, List.takeWhile_cons_of_pos hc, List.length_cons,
          List.drop_succ_cons] at hy
        simp [hc, ih hy]
      case neg =>
        have hn : ((c :: s).take (n + 1)).takeWhile p = [] := by simp [hc]
        rw [hn] at hy ⊢
        obtain ⟨y, rfl⟩ := List.head?_eq_some_iff.mp hy
        simp [hc]

end Lookahead

theorem breakPartner_eq (c : Char) (s : List Char) :
    breakPartner c s = (s.take 1).takeWhile fun d => isLineBreak d && d ≠ c := by
  cases s with
  | nil => rfl
  | cons d s =>
    simp only [List.take_succ_cons, List.take_zero, breakPartner, List.takeWhile]
    cases isLineBreak d && decide (d ≠ c) <;> rfl

theorem breakPartner_append {c : Char} {s y : List Char}
    (hy : y.head? = (s.drop (breakPartner c s).length).head?) :
    breakPartner c (breakPartner c s ++ y) = breakPartner c s := by
  simp only [breakPartner_eq] at hy ⊢
  exact takeWhile_take_append hy

theorem closingBrace_eq (s : List Char) : closingBrace s = (s.take 1).takeWhile (· = '\x7d') := by
  unfold closingBrace
  split
  case h_1 => rfl
  case h_2 h =>
    cases s with
    | nil => rfl
    | cons c s =>
      have hc : c ≠ '\x7d' := fun hc => h s (hc ▸ rfl)
      simp [hc]

theorem closingBrace_append {s y : List Char}
    (hy : y.head? = (s.drop (closingBrace s).length).head?) :
    closingBrace (closingBrace s ++ y) = closingBrace s := by
  simp only [closingBrace_eq] at hy ⊢
  exact takeWhile_take_append hy

section Braced

variable {r y : List Char}

-- The escape of a code between braces: all its digits, and the closing brace if there is one.
theorem escape_braced (r : List Char) :
    escape ('u' :: '\x7b' :: r) =
      ⟨'u' :: '\x7b' :: (r.takeWhile isHexDigit ++ closingBrace (r.dropWhile isHexDigit)),
        String.utf8EncodeChar (scalarOrReplacement (digitsValue 16 (r.takeWhile isHexDigit))),
        (r.dropWhile isHexDigit).drop (closingBrace (r.dropWhile isHexDigit)).length⟩ := rfl

theorem escape_braced_append (hy : y.head? = (escape ('u' :: '\x7b' :: r)).rest.head?) :
    escape ((escape ('u' :: '\x7b' :: r)).text ++ y) =
      { escape ('u' :: '\x7b' :: r) with rest := y } := by
  have hd : ∀ c ∈ r.takeWhile isHexDigit, isHexDigit c := fun c => List.mem_takeWhile_imp
  have hc : (closingBrace (r.dropWhile isHexDigit) ++ y).head? = (r.dropWhile isHexDigit).head? := by
    rw [List.head?_append, hy, escape_braced, ← List.head?_append, closingBrace_append_drop]
  have ha : (closingBrace (r.dropWhile isHexDigit) ++ y).head?.all fun c => !isHexDigit c :=
    hc ▸ head?_dropWhile_all isHexDigit r
  have hclose := closingBrace_append (s := r.dropWhile isHexDigit) hy
  simp only [escape_braced, List.cons_append, List.append_assoc, takeWhile_append_of_head? hd ha,
    dropWhile_append_of_head? hd ha, hclose, List.drop_left]

end Braced

-- An escape looks one character ahead at most.
theorem escape_append {s y : List Char} (hy : y.head? = (escape s).rest.head?) :
    escape ((escape s).text ++ y) = { escape s with rest := y } := by
  revert hy
  fun_cases escape s
  case case1 =>
    intro hy
    obtain rfl : y = [] := by simpa using hy
    rfl
  case case2 c r b h =>
    intro _
    simp only [List.cons_append, List.nil_append, escape, h]
  case case3 c r h₁ h₂ partner =>
    intro hy
    simp only [List.cons_append, escape, h₁, h₂, if_true, partner, breakPartner_append hy,
      List.drop_left]
  case case4 r h₁ h₂ =>
    intro hy
    have hs : ∀ c ∈ r.takeWhile isSpace, isSpace c := fun c => List.mem_takeWhile_imp
    have hr : y.head?.all fun c => !isSpace c := hy ▸ head?_dropWhile_all isSpace r
    simp only [List.cons_append, escape, h₁, h₂, if_true, takeWhile_append_of_head? hs hr,
      dropWhile_append_of_head? hs hr]
    rfl
  case case5 r digits h₁ h₂ h₃ =>
    intro hy
    simp only [List.cons_append, escape, h₁, h₂, if_true, h₃, if_false, digits,
      takeWhile_take_append hy,
      List.drop_left]
    rfl
  case case6 c r h₁ h₂ h₃ h₄ h₅ digits =>
    intro hy
    simp only [List.cons_append, escape, h₁, h₂, h₃, h₄, h₅, if_true, if_false, digits,
      takeWhile_take_append hy, List.drop_left]
    rfl
  case case7 c r h₁ h₂ h₃ h₄ h₅ h₆ digits after close =>
    intro hy
    obtain ⟨rfl, hr⟩ := h₆
    obtain ⟨r, rfl⟩ := List.head?_eq_some_iff.mp hr
    exact escape_braced_append hy
  case case8 c r h₁ h₂ h₃ h₄ h₅ h₆ =>
    intro hy
    have h₇ : ¬ (c = 'u' ∧ y.head? = some '\x7b') := hy ▸ h₆
    simp only [List.cons_append, List.nil_append, escape, h₁, h₂, h₃, h₄, h₅, h₇, if_false]
    rfl

-- Whether a short literal whose opening quote has just been taken has its closing quote.
def shortCloses (quote : Char) (s : List Char) : Bool :=
  match _h : s.dropWhile (isOrdinary quote) with
  | [] => false
  | c :: r => c = quote || (c = '\\' && shortCloses quote (escape r).rest)
termination_by s.length
decreasing_by
  have h₁ := (escape_splits r).length_rest_le
  have h₂ := (List.dropWhile_sublist (l := s) (isOrdinary quote)).length_le
  simp only [_h, List.length_cons] at h₂
  omega

section Plain

variable {quote c : Char} {plain s y : List Char}

theorem shortBody_eq_of_dropWhile_nil (h : s.dropWhile (isOrdinary quote) = []) :
    shortBody quote s =
      ⟨s.takeWhile (isOrdinary quote), Text.encode (s.takeWhile (isOrdinary quote)), []⟩ := by
  rw [shortBody]
  split
  case h_1 => rfl
  case h_2 h' => rw [h] at h'; cases h'

theorem shortBody_eq_of_dropWhile_cons (h : s.dropWhile (isOrdinary quote) = c :: y) :
    shortBody quote s =
      let plain := s.takeWhile (isOrdinary quote)
      if c = quote then ⟨plain ++ [c], Text.encode plain, y⟩
      else if c = '\\' then
        let more := shortBody quote (escape y).rest
        ⟨plain ++ c :: ((escape y).text ++ more.text),
          Text.encode plain ++ ((escape y).value ++ more.value), more.rest⟩
      else ⟨plain, Text.encode plain, c :: y⟩ := by
  rw [shortBody]
  split
  case h_1 h' => rw [h] at h'; cases h'
  case h_2 h' =>
    rw [h] at h'
    obtain ⟨rfl, rfl⟩ := List.cons.inj h'
    rfl

theorem shortCloses_eq_of_dropWhile_cons (h : s.dropWhile (isOrdinary quote) = c :: y) :
    shortCloses quote s =
      (decide (c = quote) || (c = '\\' && shortCloses quote (escape y).rest)) := by
  rw [shortCloses]
  split
  case h_1 h' => rw [h] at h'; cases h'
  case h_2 h' =>
    rw [h] at h'
    obtain ⟨rfl, rfl⟩ := List.cons.inj h'
    rfl

theorem shortCloses_eq_of_dropWhile_nil (h : s.dropWhile (isOrdinary quote) = []) :
    shortCloses quote s = false := by
  rw [shortCloses]
  split
  case h_1 => rfl
  case h_2 h' => rw [h] at h'; cases h'

end Plain

theorem isOrdinary_quote (quote : Char) : isOrdinary quote quote = false := by
  simp [isOrdinary]

theorem isOrdinary_backslash (quote : Char) : isOrdinary quote '\\' = false := by
  simp [isOrdinary]

theorem shortBody_text_ne_nil {quote : Char} {s : List Char} (h : shortCloses quote s) :
    (shortBody quote s).text ≠ [] := by
  cases hd : s.dropWhile (isOrdinary quote) with
  | nil => simp [shortCloses_eq_of_dropWhile_nil hd] at h
  | cons c r =>
    rw [shortCloses_eq_of_dropWhile_cons hd] at h
    rw [shortBody_eq_of_dropWhile_cons hd]
    dsimp only
    split
    case isTrue => simp
    case isFalse hq =>
      split
      case isTrue => simp
      case isFalse hb => simp [hq, hb] at h

section Plain

variable {quote c : Char} {plain y : List Char}

theorem shortBody_plain_append (hp : ∀ d ∈ plain, isOrdinary quote d)
    (hc : isOrdinary quote c = false) :
    shortBody quote (plain ++ c :: y) =
      if c = quote then ⟨plain ++ [c], Text.encode plain, y⟩
      else if c = '\\' then
        let more := shortBody quote (escape y).rest
        ⟨plain ++ c :: ((escape y).text ++ more.text),
          Text.encode plain ++ ((escape y).value ++ more.value), more.rest⟩
      else ⟨plain, Text.encode plain, c :: y⟩ := by
  rw [shortBody_eq_of_dropWhile_cons (dropWhile_append_cons hp hc), takeWhile_append_cons hp hc]

theorem shortCloses_plain_append (hp : ∀ d ∈ plain, isOrdinary quote d)
    (hc : isOrdinary quote c = false) :
    shortCloses quote (plain ++ c :: y) =
      (decide (c = quote) || (c = '\\' && shortCloses quote (escape y).rest)) :=
  shortCloses_eq_of_dropWhile_cons (dropWhile_append_cons hp hc)

end Plain

theorem ordinary_takeWhile (quote : Char) (s : List Char) :
    ∀ c ∈ s.takeWhile (isOrdinary quote), isOrdinary quote c :=
  fun _ => List.mem_takeWhile_imp

theorem not_ordinary_of_dropWhile {quote c : Char} {s r : List Char}
    (h : s.dropWhile (isOrdinary quote) = c :: r) : isOrdinary quote c = false := by
  simpa [h] using head?_dropWhile_all (isOrdinary quote) s

-- What may follow a short literal is not seen at its start.
theorem head?_shortBody_append {quote : Char} {s y : List Char}
    (h : shortCloses quote s ∨ y.head? = (shortBody quote s).rest.head?) :
    ((shortBody quote s).text ++ y).head? = s.head? := by
  conv => rhs; rw [← shortBody_splits quote s]
  rw [List.head?_append, List.head?_append]
  rcases h with h | h
  case inl =>
    obtain ⟨c, text, htext⟩ := List.exists_cons_of_ne_nil (shortBody_text_ne_nil h)
    rw [htext]
    rfl
  case inr => rw [h]

-- A short literal reads the same in front of every text once it is closed, and else in front of
-- every text that starts alike.
theorem shortBody_append {quote : Char} {s y : List Char}
    (h : shortCloses quote s ∨ y.head? = (shortBody quote s).rest.head?) :
    shortBody quote ((shortBody quote s).text ++ y) = { shortBody quote s with rest := y } ∧
      shortCloses quote ((shortBody quote s).text ++ y) = shortCloses quote s := by
  revert h
  fun_induction shortBody quote s generalizing y with
  | case1 s plain =>
    rename_i hd
    intro h
    have hn := shortCloses_eq_of_dropWhile_nil hd
    obtain rfl : y = [] := by simpa [hn] using h
    have hp : ∀ d ∈ plain, isOrdinary quote d := ordinary_takeWhile quote s
    have hd' : plain.dropWhile (isOrdinary quote) = [] := List.dropWhile_eq_nil_iff.mpr hp
    have ht : plain.takeWhile (isOrdinary quote) = plain := List.takeWhile_eq_self_iff.mpr hp
    dsimp only
    rw [List.append_nil, shortBody_eq_of_dropWhile_nil hd', shortCloses_eq_of_dropWhile_nil hd',
      ht, hn]
    exact ⟨rfl, rfl⟩
  | case2 s plain r =>
    rename_i hd
    intro _
    have hp : ∀ d ∈ plain, isOrdinary quote d := ordinary_takeWhile quote s
    have hq := isOrdinary_quote quote
    rw [shortCloses_eq_of_dropWhile_cons hd]
    dsimp only
    rw [List.append_assoc, List.singleton_append, shortBody_plain_append hp hq,
      shortCloses_plain_append hp hq]
    simp
  | case3 s plain r piece more hd hq =>
    rename_i ih
    intro h
    have hp : ∀ d ∈ plain, isOrdinary quote d := ordinary_takeWhile quote s
    have hb := isOrdinary_backslash quote
    rw [shortCloses_eq_of_dropWhile_cons hd] at h ⊢
    have h : shortCloses quote piece.rest ∨ y.head? = more.rest.head? := by
      simpa [hq] using h
    have hm : (more.text ++ y).head? = piece.rest.head? := head?_shortBody_append h
    obtain ⟨hbody, hcloses⟩ := ih h
    dsimp only
    rw [List.append_assoc, List.cons_append, List.append_assoc, shortBody_plain_append hp hb,
      shortCloses_plain_append hp hb, escape_append hm]
    simp [piece, hq, hbody, hcloses, more]
  | case4 s plain c r hd hq =>
    rename_i hb
    intro h
    have hp : ∀ d ∈ plain, isOrdinary quote d := ordinary_takeWhile quote s
    have hc := not_ordinary_of_dropWhile hd
    rw [shortCloses_eq_of_dropWhile_cons hd] at h ⊢
    have hy : y.head? = some c := by simpa [hq, hb] using h
    obtain ⟨y, rfl⟩ := List.head?_eq_some_iff.mp hy
    dsimp only
    rw [shortBody_plain_append hp hc, shortCloses_plain_append hp hc]
    simp [hq, hb]

end LuaBundle.Lua

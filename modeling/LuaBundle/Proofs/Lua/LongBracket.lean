import LuaBundle.Lua.LongBracket

namespace LuaBundle.Lua

section Level

variable {s t y : List Char} {c : Char}

theorem takeWhile_append_cons {p : Char → Bool} (ht : ∀ d ∈ t, p d) (hc : p c = false) :
    (t ++ c :: y).takeWhile p = t := by
  rw [List.takeWhile_append_of_pos ht, List.takeWhile_cons_of_neg (by simp [hc]), List.append_nil]

theorem dropWhile_append_cons {p : Char → Bool} (ht : ∀ d ∈ t, p d) (hc : p c = false) :
    (t ++ c :: y).dropWhile p = c :: y := by
  rw [List.dropWhile_append_of_pos ht, List.dropWhile_cons_of_neg (by simp [hc])]

-- A text is a run of equals signs, with or without something else after it.
theorem eq_replicate_or_exists (s : List Char) :
    ∃ n, s = List.replicate n '=' ∨ ∃ c r, c ≠ '=' ∧ s = List.replicate n '=' ++ c :: r := by
  induction s with
  | nil => exact ⟨0, .inl rfl⟩
  | cons d s ih =>
    by_cases hd : d = '='
    case neg => exact ⟨0, .inr ⟨d, s, hd, rfl⟩⟩
    case pos =>
      obtain ⟨n, rfl | ⟨c, r, hc, rfl⟩⟩ := ih
      · exact ⟨n + 1, .inl (by simp [hd, List.replicate_succ])⟩
      · exact ⟨n + 1, .inr ⟨c, r, hc, by simp [hd, List.replicate_succ]⟩⟩

theorem longLevel?_replicate (n : Nat) : longLevel? (List.replicate n '=') = none := by
  have h : (List.replicate n '=').dropWhile (· = '=') = [] := by
    induction n <;> simp_all [List.replicate_succ]
  simp [longLevel?, h]

theorem longLevel?_replicate_append_cons {n : Nat} (hc : c ≠ '=') :
    longLevel? (List.replicate n '=' ++ c :: y) = if c = '[' then some (n, y) else none := by
  have hn : ∀ d ∈ List.replicate n '=', decide (d = '=') := by simp
  have hc' : decide (c = '=') = false := by simpa using hc
  rw [longLevel?, dropWhile_append_cons hn hc', takeWhile_append_cons hn hc', List.length_replicate]
  by_cases h : c = '['
  case pos => simp [h]
  case neg => simp [h]

theorem longLevel?_opener_append (level : Nat) (body : List Char) :
    longLevel? (longOpener level ++ body) = some (level, body) := by
  rw [longOpener, List.append_assoc, List.singleton_append,
    longLevel?_replicate_append_cons (by decide), if_pos rfl]

-- Whether a text opens a long bracket does not depend on what comes after a character that is
-- not an equals sign.
theorem longLevel?_isSome_append (p : List Char) {x y : List Char}
    (h : (longLevel? y).isSome → (longLevel? x).isSome) :
    (longLevel? (p ++ y)).isSome → (longLevel? (p ++ x)).isSome := by
  obtain ⟨n, rfl | ⟨c, r, hc, rfl⟩⟩ := eq_replicate_or_exists p
  case inr =>
    simp only [List.append_assoc, List.cons_append, longLevel?_replicate_append_cons hc]
    split <;> simp
  case inl =>
    have hr (z : List Char) :
        (longLevel? (List.replicate n '=' ++ z)).isSome = (longLevel? z).isSome := by
      obtain ⟨m, rfl | ⟨c, r, hc, rfl⟩⟩ := eq_replicate_or_exists z
      · rw [List.replicate_append_replicate, longLevel?_replicate, longLevel?_replicate]
      · rw [← List.append_assoc, List.replicate_append_replicate,
          longLevel?_replicate_append_cons hc, longLevel?_replicate_append_cons hc]
        split <;> rfl
    rw [hr, hr]
    exact h

end Level

-- A text behind which a pattern follows for the first time.
def FirstAt (pattern before : List Char) : Prop :=
  ∀ earlier after, before ++ pattern = earlier ++ (pattern ++ after) → after = []

namespace FirstAt

variable {pattern before : List Char} {c : Char}

theorem nil (pattern : List Char) : FirstAt pattern [] := by
  intro earlier after h
  have := congrArg List.length h
  simp at this
  exact List.length_eq_zero_iff.mp (by omega)

theorem tail (h : FirstAt pattern (c :: before)) : FirstAt pattern before := fun earlier after he =>
  h (c :: earlier) after (by simp [he])

theorem cons (h : FirstAt pattern before) (hn : ¬ pattern <+: c :: (before ++ pattern)) :
    FirstAt pattern (c :: before) := by
  intro earlier after he
  cases earlier with
  | nil => exact absurd ⟨after, by simpa using he.symm⟩ hn
  | cons d earlier => exact h earlier after (by simpa using (List.cons.inj he).2)

theorem not_prefix (h : FirstAt pattern (c :: before)) (rest : List Char) :
    ¬ pattern <+: c :: (before ++ (pattern ++ rest)) := by
  rintro hp
  have hp' : pattern <+: (c :: before) ++ pattern :=
    List.prefix_of_prefix_length_le hp ⟨rest, by simp⟩ (by simp; omega)
  obtain ⟨after, he⟩ := hp'
  obtain rfl := h [] after he.symm
  have := congrArg List.length he
  simp at this
  omega

end FirstAt

theorem breakOn?.go_append {pattern before : List Char} (h : FirstAt pattern before)
    (rest acc : List Char) :
    breakOn?.go pattern (before ++ (pattern ++ rest)) acc = some (acc.reverse ++ before, rest) := by
  induction before generalizing acc with
  | nil =>
    rw [List.nil_append]
    unfold go
    rw [if_pos (List.isPrefixOf_iff_prefix.mpr ⟨rest, rfl⟩)]
    simp
  | cons c before ih =>
    have hn := h.not_prefix rest
    rw [← List.isPrefixOf_iff_prefix] at hn
    rw [List.cons_append, go, if_neg hn, ih h.tail]
    simp

theorem breakOn?_append {pattern before : List Char} (h : FirstAt pattern before)
    (rest : List Char) : breakOn? pattern (before ++ (pattern ++ rest)) = some (before, rest) := by
  simp [breakOn?, breakOn?.go_append h]

theorem breakOn?.firstAt_of_go {pattern s acc before after : List Char}
    (h : breakOn?.go pattern s acc = some (before, after)) :
    ∃ found, before = acc.reverse ++ found ∧ s = found ++ (pattern ++ after) ∧
      FirstAt pattern found := by
  induction s generalizing acc with
  | nil =>
    rw [go] at h
    split at h
    case isTrue hp =>
      obtain ⟨rfl, rfl⟩ := by simpa using h
      exact ⟨[], by simp, by simpa using hp, .nil _⟩
    case isFalse => simp at h
  | cons c r ih =>
    rw [go] at h
    split at h
    case isTrue hp =>
      obtain ⟨rfl, rfl⟩ := by simpa using h
      obtain ⟨t, ht⟩ := List.isPrefixOf_iff_prefix.mp hp
      exact ⟨[], by simp, by simp [← ht], .nil _⟩
    case isFalse hp =>
      obtain ⟨found, rfl, rfl, hf⟩ := ih h
      refine ⟨c :: found, by simp, rfl, hf.cons fun hc => hp ?_⟩
      exact List.isPrefixOf_iff_prefix.mpr (hc.trans ⟨after, by simp⟩)

theorem firstAt_of_breakOn? {pattern s before after : List Char}
    (h : breakOn? pattern s = some (before, after)) : FirstAt pattern before := by
  obtain ⟨found, rfl, -, hf⟩ := breakOn?.firstAt_of_go h
  exact hf

-- Whether a long bracket is closed.
def longCloses (level : Nat) (s : List Char) : Bool :=
  (breakOn? (longCloser level) (s.drop (leadingBreak s).length)).isSome

-- What comes after the first character inside a long bracket does not decide on the line break in
-- front of it.
theorem leadingBreak_append_cons {s r : List Char} {d : Char}
    (h : s.drop (leadingBreak s).length = d :: r) (y : List Char) :
    leadingBreak (leadingBreak s ++ d :: y) = leadingBreak s := by
  fun_cases leadingBreak s
  case case1 => rfl
  case case2 => rfl
  case case3 tail h' =>
    have hk : leadingBreak ('\r' :: tail) = ['\r'] := by simp [leadingBreak]
    rw [hk] at h
    obtain rfl : tail = d :: r := by simpa using h
    have hd : d ≠ '\n' := fun hd => h' r (hd ▸ rfl)
    simp [leadingBreak, hd]
  case case4 tail h' =>
    have hk : leadingBreak ('\n' :: tail) = ['\n'] := by simp [leadingBreak]
    rw [hk] at h
    obtain rfl : tail = d :: r := by simpa using h
    have hd : d ≠ '\r' := fun hd => h' r (hd ▸ rfl)
    simp [leadingBreak, hd]
  case case5 h₁ h₂ h₃ h₄ =>
    have hk : leadingBreak s = [] := by simp [leadingBreak]
    rw [hk] at h
    obtain rfl : s = d :: r := by simpa using h
    have hr : d ≠ '\r' := fun hd => h₃ r (hd ▸ rfl)
    have hn : d ≠ '\n' := fun hd => h₄ r (hd ▸ rfl)
    simp [leadingBreak, hr, hn]

theorem longCloses_iff {level : Nat} {s : List Char} :
    longCloses level s ↔ ∃ content rest,
      breakOn? (longCloser level) (s.drop (leadingBreak s).length) = some (content, rest) := by
  rw [longCloses, Option.isSome_iff_exists, Prod.exists]

section Closed

variable {level : Nat} {s content rest : List Char}

theorem leadingBreak_append_closed
    (h : breakOn? (longCloser level) (s.drop (leadingBreak s).length) = some (content, rest))
    (y : List Char) :
    leadingBreak (leadingBreak s ++ (content ++ (longCloser level ++ y))) = leadingBreak s := by
  obtain ⟨d, r, hd⟩ : ∃ d r, content ++ longCloser level = d :: r :=
    List.exists_cons_of_ne_nil (by simp [longCloser])
  have hs := append_of_breakOn? h
  rw [← List.append_assoc, hd] at hs
  rw [← List.append_assoc content, hd]
  exact leadingBreak_append_cons hs.symm (r ++ y)

theorem breakOn?_append_closed
    (h : breakOn? (longCloser level) (s.drop (leadingBreak s).length) = some (content, rest))
    (y : List Char) :
    breakOn? (longCloser level)
        (((longBody level s).text ++ y).drop (leadingBreak ((longBody level s).text ++ y)).length) =
      some (content, y) := by
  simp only [longBody, h, List.append_assoc, leadingBreak_append_closed h, List.drop_left,
    breakOn?_append (firstAt_of_breakOn? h)]

theorem longCloses_append (h : longCloses level s) (y : List Char) :
    longCloses level ((longBody level s).text ++ y) := by
  obtain ⟨content, rest, h⟩ := longCloses_iff.mp h
  exact longCloses_iff.mpr ⟨content, y, breakOn?_append_closed h y⟩

-- A closed long bracket reads the same in front of every text.
theorem longBody_append (h : longCloses level s) (y : List Char) :
    longBody level ((longBody level s).text ++ y) = { longBody level s with rest := y } := by
  obtain ⟨content, rest, h⟩ := longCloses_iff.mp h
  simp only [longBody, h, List.append_assoc, leadingBreak_append_closed h, List.drop_left,
    breakOn?_append (firstAt_of_breakOn? h)]

theorem longBody_rest_eq_nil (h : longCloses level s = false) : (longBody level s).rest = [] := by
  have hb := Option.isNone_iff_eq_none.mp (Option.isSome_eq_false_iff.mp h)
  simp only [longBody, hb]

-- A long bracket that nothing is left behind is the whole text.
theorem longBody_text_eq (h : (longBody level s).rest = []) : (longBody level s).text = s := by
  have hs := longBody_splits level s
  rwa [Reading.Splits, h, List.append_nil] at hs

theorem getLast?_longBody_text (h : longCloses level s) :
    (longBody level s).text.getLast? = some ']' := by
  obtain ⟨content, rest, h⟩ := longCloses_iff.mp h
  have ht : (longBody level s).text = leadingBreak s ++ (content ++ longCloser level) := by
    simp only [longBody, h]
  rw [ht, longCloser, ← List.cons_append, ← List.append_assoc, ← List.append_assoc,
    List.getLast?_concat]

end Closed
end LuaBundle.Lua

import LuaBundle.Proofs.Lua.Boundary

namespace LuaBundle.Lua

-- Induction along the tokens of a text.
@[elab_as_elim]
theorem lexInduction {motive : List Char → Prop} (nil : ∀ s, (trivia s).2 = [] → motive s)
    (cons : ∀ s c r, (trivia s).2 = c :: r → motive (token c r).rest → motive s) (s : List Char) :
    motive s :=
  match h : (trivia s).2 with
  | [] => nil s h
  | c :: r => cons s c r h (lexInduction nil cons (token c r).rest)
termination_by s.length
decreasing_by exact length_token_rest_lt h

theorem lexFrom_eq_nil {start : Nat} {s : List Char} (h : (trivia s).2 = []) :
    lexFrom start s = [] := by
  rw [lexFrom_eq, h]

theorem lexFrom_eq_cons {start : Nat} {s r : List Char} {c : Char} (h : (trivia s).2 = c :: r) :
    lexFrom start s =
      ⟨(token c r).value, start + Text.size (trivia s).1,
        start + Text.size (trivia s).1 + Text.size (token c r).text⟩ ::
          lexFrom (start + Text.size (trivia s).1 + Text.size (token c r).text)
            (token c r).rest := by
  rw [lexFrom_eq, h]

-- A token as it stands `n` bytes further on.
def Token.shift (n : Nat) (t : Token) : Token :=
  { t with start := t.start + n, stop := t.stop + n }

-- Where a text stands moves its tokens and changes nothing else.
theorem lexFrom_add (m n : Nat) (s : List Char) :
    lexFrom (m + n) s = (lexFrom m s).map (Token.shift n) := by
  induction s using lexInduction generalizing m with
  | nil s h => rw [lexFrom_eq_nil h, lexFrom_eq_nil h, List.map_nil]
  | cons s c r h ih =>
    have hstart : m + n + Text.size (trivia s).1 = m + Text.size (trivia s).1 + n := by omega
    have hstop : m + Text.size (trivia s).1 + n + Text.size (token c r).text =
        m + Text.size (trivia s).1 + Text.size (token c r).text + n := by omega
    rw [lexFrom_eq_cons h, lexFrom_eq_cons h, List.map_cons, hstart, hstop, ih]
    rfl

theorem lexFrom_cons_space {c : Char} (hc : isSpace c) (n : Nat) (s : List Char) :
    lexFrom n (c :: s) = lexFrom (n + c.utf8Size) s := by
  have ht := trivia_cons_space (s := s) hc
  cases hs : (trivia s).2 with
  | nil => rw [lexFrom_eq_nil hs, lexFrom_eq_nil (by rw [ht, hs])]
  | cons d r =>
    rw [lexFrom_eq_cons hs, lexFrom_eq_cons (by rw [ht, hs]), ht]
    simp only [Text.size_cons, Nat.add_assoc]

theorem lex_line_feed_append (s : String) : lex ("\n" ++ s) = lexFrom 1 s.toList := by
  have hs : ("\n" ++ s).toList = '\n' :: s.toList := by simp
  have hpre : preamble ('\n' :: s.toList) = ([], '\n' :: s.toList) := rfl
  rw [lex, hs, hpre]
  exact lexFrom_cons_space (by decide) 0 s.toList

-- What the tokens of a text say.
def kinds (s : List Char) : List Kind :=
  (lexFrom 0 s).map Token.kind

theorem lexFrom_map_kind (start : Nat) (s : List Char) :
    (lexFrom start s).map Token.kind = kinds s := by
  have hstart := lexFrom_add 0 start s
  rw [Nat.zero_add] at hstart
  rw [hstart, List.map_map]
  rfl

section Kinds

variable {s t r y : List Char} {c : Char}

theorem kinds_eq_nil (h : (trivia s).2 = []) : kinds s = [] := by
  rw [kinds, lexFrom_eq_nil h, List.map_nil]

theorem kinds_nil : kinds [] = [] :=
  kinds_eq_nil (by simp)

theorem kinds_eq_cons (h : (trivia s).2 = c :: r) :
    kinds s = (token c r).value :: kinds (token c r).rest := by
  rw [kinds, lexFrom_eq_cons h, List.map_cons, lexFrom_map_kind]

theorem kinds_eq_of_trivia_eq (h : (trivia s).2 = (trivia t).2) : kinds s = kinds t := by
  cases ht : (trivia t).2 with
  | nil => rw [kinds_eq_nil ht, kinds_eq_nil (h.trans ht)]
  | cons c r => rw [kinds_eq_cons ht, kinds_eq_cons (h.trans ht)]

-- White space and comments say nothing.
theorem IsTrivia.kinds_append (h : IsTrivia t) (y : List Char) : kinds (t ++ y) = kinds y :=
  kinds_eq_of_trivia_eq (by rw [h.trivia_append])

theorem kinds_cons_space (h : isSpace c) (y : List Char) : kinds (c :: y) = kinds y :=
  IsTrivia.kinds_append (.space h .nil) y

theorem eq_trivia_token_rest (h : (trivia s).2 = c :: r) :
    (trivia s).1 ++ ((token c r).text ++ (token c r).rest) = s := by
  have hs := trivia_append s
  rw [h, ← token_splits c r] at hs
  exact hs

theorem cons_tail_token_text (c : Char) (r : List Char) :
    c :: (token c r).text.tail = (token c r).text := by
  obtain ⟨d, t, ht⟩ := List.exists_cons_of_ne_nil (token_text_ne_nil c r)
  have hs := token_splits c r
  rw [Reading.Splits, ht, List.cons_append] at hs
  rw [ht, List.tail_cons, (List.cons.inj hs).1]

theorem take_two_eq_dashes : (c :: s).take 2 = ['-', '-'] ↔ c = '-' ∧ s.head? = some '-' := by
  cases s <;> simp

theorem head?_any_eq {m : Char} : s.head?.any (· = m) = false ↔ s.head? ≠ some m := by
  cases s <;> simp

-- What lets the text behind a token be changed from `x` to `y`.
def Exchange (c : Char) (r y : List Char) : Prop :=
  Neutral (token c r).rest y ∧ (tokenCloses c r ∨ y.head? = (token c r).rest.head?)

-- The front of a text stays the same when the text behind its first token is exchanged.
theorem trivia_exchange (h : (trivia s).2 = c :: r) (hy : Exchange c r y) :
    trivia ((trivia s).1 ++ ((token c r).text ++ y)) =
      ((trivia s).1, c :: ((token c r).text.tail ++ y)) := by
  have hs : IsTrivia (trivia s).1 := isTrivia_trivia_of_ne_nil (by simp [h])
  have hb : Bare ((token c r).text ++ y) := by
    have hb := bare_trivia s
    rw [h] at hb
    rw [← cons_tail_token_text]
    have hr : r = (token c r).text.tail ++ (token c r).rest := by
      have := token_splits c r
      rw [Reading.Splits, ← cons_tail_token_text, List.cons_append] at this
      exact (List.cons.inj this).2.symm
    refine ⟨by simpa [Bare] using hb.1, fun ht => hb.2 ?_⟩
    rw [List.cons_append, take_two_eq_dashes] at ht
    refine take_two_eq_dashes.mpr ⟨ht.1, ?_⟩
    rw [hr]
    cases htail : (token c r).text.tail with
    | cons d t => simpa [htail] using ht.2
    | nil =>
      rw [htail] at ht
      by_contra hx
      have hm : Neutral.Class (· = '-') := class_eq (by decide) (by decide)
      exact head?_any_eq.mp (hy.1.head?_any hm (head?_any_eq.mpr hx)) ht.2
  rw [hs.trivia_append, trivia_of_bare hb, List.append_nil, ← cons_tail_token_text,
    List.cons_append]
  rfl

theorem kinds_exchange (h : (trivia s).2 = c :: r) (hy : Exchange c r y) :
    kinds ((trivia s).1 ++ ((token c r).text ++ y)) = (token c r).value :: kinds y := by
  rw [kinds_eq_cons (congrArg Prod.snd (trivia_exchange h hy)), (token_append hy.1 hy.2).1]

end Kinds

-- Whether a text comes to its end inside a string or a long comment.
def runsOut (s : List Char) : Bool :=
  triviaRunsOut s ||
    match _h : (trivia s).2 with
    | [] => false
    | c :: r => (!tokenCloses c r && (token c r).rest.isEmpty) || runsOut (token c r).rest
termination_by s.length
decreasing_by exact length_token_rest_lt _h

section RunsOut

variable {s r y : List Char} {c : Char}

theorem runsOut_eq_nil (h : (trivia s).2 = []) : runsOut s = triviaRunsOut s := by
  rw [runsOut]
  split
  case h_1 => simp
  case h_2 h' => simp [h] at h'

theorem runsOut_nil : runsOut [] = false :=
  (runsOut_eq_nil (by simp)).trans triviaRunsOut_nil

theorem runsOut_eq_cons (h : (trivia s).2 = c :: r) :
    runsOut s =
      (triviaRunsOut s ||
        ((!tokenCloses c r && (token c r).rest.isEmpty) || runsOut (token c r).rest)) := by
  rw [runsOut]
  split
  case h_1 h' => simp [h] at h'
  case h_2 h' =>
    obtain ⟨rfl, rfl⟩ := List.cons.inj (h.symm.trans h')
    rfl

theorem closes_of_not_runsOut (h : (trivia s).2 = c :: r) (hs : runsOut s = false)
    (hr : (token c r).rest = []) : tokenCloses c r := by
  rw [runsOut_eq_cons h, hr] at hs
  simp_all

theorem not_runsOut_rest (h : (trivia s).2 = c :: r) (hs : runsOut s = false) :
    runsOut (token c r).rest = false := by
  rw [runsOut_eq_cons h] at hs
  simp_all

theorem not_triviaRunsOut (hs : runsOut s = false) : triviaRunsOut s = false := by
  rw [runsOut] at hs
  simp_all

-- What stands between two texts that are put together: the first ends in a line of its own, or the
-- second begins a new line.
def Apart (s y : List Char) : Prop :=
  EndsLine s ∨ y.head? = some '\n'

theorem neutral_append_of_apart (hr : s ≠ [] ∨ y.head? = some '\n') (h : Apart s y) :
    Neutral s (s ++ y) := by
  rcases h with h | h
  case inl =>
    rcases hr with hr | hr
    case inl =>
      obtain ⟨s, d, rfl⟩ : ∃ t d, s = t ++ [d] :=
        ⟨_, _, (List.dropLast_concat_getLast hr).symm⟩
      obtain rfl : d = '\n' := h d (by simp)
      rw [List.append_assoc]
      exact (Neutral.of_space (by simp [isSpace])).prepend s
    case inr =>
      have := (Neutral.of_space (x := []) (y := y) (by simp [hr, isSpace])).prepend s
      rwa [List.append_nil] at this
  case inr =>
    have := (Neutral.of_space (x := []) (y := y) (by simp [h, isSpace])).prepend s
    rwa [List.append_nil] at this

-- What is put behind a text that ends outside of strings and comments is put behind its rest.
theorem exchange_append (hs : (trivia s).2 = c :: r) (h : runsOut s = false) (ha : Apart s y) :
    Exchange c r ((token c r).rest ++ y) ∧ Apart (token c r).rest y := by
  have heq := eq_trivia_token_rest hs
  have hr : (token c r).rest ≠ [] ∨ y.head? = some '\n' := by
    refine ha.imp_left fun ha hr => ?_
    have hf : isSpace c = false := by
      have := (bare_trivia s).1
      simpa [hs] using this
    refine getLast?_token_text hf (closes_of_not_runsOut hs h hr) ?_
    rw [hr, List.append_nil] at heq
    rw [← heq] at ha
    have ha := ha.of_append
    have hl := List.getLast?_eq_some_getLast (token_text_ne_nil c r)
    rwa [ha _ hl] at hl
  have ha' : Apart (token c r).rest y := by
    refine ha.imp_left fun ha => ?_
    rw [← heq] at ha
    exact ha.of_append.of_append
  refine ⟨⟨neutral_append_of_apart hr ha', ?_⟩, ha'⟩
  by_cases hr : (token c r).rest = []
  case pos => exact .inl (closes_of_not_runsOut hs h hr)
  case neg =>
    right
    obtain ⟨d, t, ht⟩ := List.exists_cons_of_ne_nil hr
    rw [ht]
    rfl

theorem isTrivia_of_apart (hs : (trivia s).2 = []) (h : runsOut s = false) (ha : Apart s y) :
    ∃ t z, s ++ y = t ++ z ∧ IsTrivia t ∧ (trivia z).2 = (trivia y).2 ∧
      triviaRunsOut z = triviaRunsOut y := by
  have hs' : (trivia s).1 = s := by
    have := trivia_append s
    rwa [hs, List.append_nil] at this
  have hc := not_triviaRunsOut h
  rcases ha with ha | ha
  case inl =>
    have ht := isTrivia_trivia hc (.inr ha)
    rw [hs'] at ht
    exact ⟨s, y, rfl, ht, rfl, rfl⟩
  case inr =>
    obtain ⟨y, rfl⟩ := List.head?_eq_some_iff.mp ha
    have ht : IsTrivia ((trivia s).1 ++ ['\n']) := isTrivia_trivia_append hc (.inr rfl)
    rw [hs'] at ht
    refine ⟨s ++ ['\n'], y, by simp, ht, ?_, (triviaRunsOut_cons_space (by decide)).symm⟩
    rw [trivia_cons_space (by decide)]

-- The tokens of two texts put together are the tokens of the one and then of the other, unless the
-- first ends inside a string or a comment.
theorem kinds_append (h : runsOut s = false) (ha : Apart s y) :
    kinds (s ++ y) = kinds s ++ kinds y := by
  induction s using lexInduction with
  | nil s hs =>
    obtain ⟨t, z, heq, ht, hz, -⟩ := isTrivia_of_apart hs h ha
    rw [kinds_eq_nil hs, List.nil_append, heq, ht.kinds_append, kinds_eq_of_trivia_eq hz]
  | cons s c r hs ih =>
    obtain ⟨hx, ha'⟩ := exchange_append hs h ha
    have hk := kinds_exchange hs hx
    rw [← List.append_assoc, ← List.append_assoc, List.append_assoc (trivia s).1,
      eq_trivia_token_rest hs] at hk
    rw [hk, kinds_eq_cons hs, ih (not_runsOut_rest hs h) ha', List.cons_append]

theorem runsOut_exchange (h : (trivia s).2 = c :: r) (hy : Exchange c r y) :
    runsOut ((trivia s).1 ++ ((token c r).text ++ y)) =
      ((!tokenCloses c r && y.isEmpty) || runsOut y) := by
  have hs := congrArg Prod.snd (trivia_exchange h hy)
  obtain ⟨ht, hc⟩ := token_append hy.1 hy.2
  have hr : triviaRunsOut ((trivia s).1 ++ ((token c r).text ++ y)) = false :=
    Bool.eq_false_iff.mpr (mt trivia_eq_nil_of_runsOut (by simp [hs]))
  rw [runsOut_eq_cons hs, hr, hc, ht]
  rfl

theorem runsOut_eq_of_trivia_eq {t : List Char} (h : (trivia s).2 = (trivia t).2)
    (hr : triviaRunsOut s = triviaRunsOut t) : runsOut s = runsOut t := by
  cases ht : (trivia t).2 with
  | nil => rw [runsOut_eq_nil ht, runsOut_eq_nil (h.trans ht), hr]
  | cons c r => rw [runsOut_eq_cons ht, runsOut_eq_cons (h.trans ht), hr]

theorem IsTrivia.runsOut_append {t : List Char} (h : IsTrivia t) (y : List Char) :
    runsOut (t ++ y) = runsOut y :=
  runsOut_eq_of_trivia_eq (by rw [h.trivia_append]) (h.triviaRunsOut_append y)

theorem runsOut_append (h : runsOut s = false) (ha : Apart s y) : runsOut (s ++ y) = runsOut y := by
  induction s using lexInduction with
  | nil s hs =>
    obtain ⟨t, z, heq, ht, hz, hr⟩ := isTrivia_of_apart hs h ha
    rw [heq, ht.runsOut_append, runsOut_eq_of_trivia_eq hz hr]
  | cons s c r hs ih =>
    obtain ⟨hx, ha'⟩ := exchange_append hs h ha
    have hk := runsOut_exchange hs hx
    rw [← List.append_assoc, ← List.append_assoc, List.append_assoc (trivia s).1,
      eq_trivia_token_rest hs, ih (not_runsOut_rest hs h) ha'] at hk
    have hc : (!tokenCloses c r && ((token c r).rest ++ y).isEmpty) = false := by
      by_cases hr : (token c r).rest = []
      case pos => simp [closes_of_not_runsOut hs h hr]
      case neg => simp [hr]
    rw [hk, hc]
    rfl

-- The first token of `s` says `k`, is closed where it ends, and leaves `y`.
def Begins (s : List Char) (k : Kind) (y : List Char) : Prop :=
  ∃ c r, (trivia s).2 = c :: r ∧ (token c r).value = k ∧ (token c r).rest = y ∧ tokenCloses c r

theorem Begins.of_bare {k : Kind} (hb : Bare (c :: r)) (hk : (token c r).value = k)
    (hr : (token c r).rest = y) (hc : tokenCloses c r) : Begins (c :: r) k y :=
  ⟨c, r, by rw [trivia_of_bare hb], hk, hr, hc⟩

namespace Begins

variable {k : Kind}

theorem lexFrom_append {text : List Char} (h : Begins (text ++ y) k y) (hb : Bare (text ++ y))
    (n : Nat) : lexFrom n (text ++ y) =
      ⟨k, n, n + Text.size text⟩ :: lexFrom (n + Text.size text) y := by
  obtain ⟨c, r, hs, hvalue, hrest, -⟩ := h
  have htext : (token c r).text = text := by
    have := eq_trivia_token_rest hs
    rw [trivia_of_bare hb, hrest] at this
    exact List.append_cancel_right this
  rw [lexFrom_eq_cons hs, trivia_of_bare hb, hvalue, hrest, htext]
  rfl

theorem kinds_eq (h : Begins s k y) : kinds s = k :: kinds y := by
  obtain ⟨c, r, hs, rfl, rfl, -⟩ := h
  exact kinds_eq_cons hs

theorem runsOut_eq (h : Begins s k y) : runsOut s = runsOut y := by
  obtain ⟨c, r, hs, rfl, rfl, hc⟩ := h
  have ht : triviaRunsOut s = false :=
    Bool.eq_false_iff.mpr (mt trivia_eq_nil_of_runsOut (by simp [hs]))
  rw [runsOut_eq_cons hs, ht, hc]
  rfl

end Begins

end RunsOut
end LuaBundle.Lua

import LuaBundle.Proofs.Lua.Kinds
import LuaBundle.Proofs.Text.Offset

namespace LuaBundle.Lua

open Text

variable {start : Nat} {s : List Char} {t : Token} {earlier later : List Token}

-- A token that begins with `c` in front of `r` stands in a text behind `before`, after the tokens
-- `earlier`.
structure Stands (start : Nat) (s : List Char) (earlier : List Token) (before : List Char)
    (c : Char) (r : List Char) : Prop where
  eq : s = before ++ c :: r
  bare : Bare (c :: r)
  apart : isWord c → before.getLast?.all fun d => !isNameCharacter d
  -- what may follow the same tokens may stand in its place
  exchange : ∀ {y : List Char}, Neutral (c :: r) y →
    lexFrom start (before ++ y) = earlier ++ lexFrom (start + size before) y
  closed : runsOut s = false → runsOut (token c r).rest = false

theorem IsTrivia.lexFrom_append {t : List Char} (h : IsTrivia t) (n : Nat) (y : List Char) :
    lexFrom n (t ++ y) = lexFrom (n + size t) y := by
  have ht := h.trivia_append y
  cases hy : (trivia y).2 with
  | nil => rw [lexFrom_eq_nil hy, lexFrom_eq_nil (by rw [ht, hy])]
  | cons c r =>
    rw [lexFrom_eq_cons hy, lexFrom_eq_cons (by rw [ht, hy]), ht]
    simp only [size_append, Nat.add_assoc]

theorem all_getLast?_append {p : Char → Bool} {t s : List Char} (ht : t.getLast?.all p)
    (hs : s.getLast?.all p) : (t ++ s).getLast?.all p := by
  rw [List.getLast?_append]
  cases hl : s.getLast? with
  | none => exact ht
  | some d => rwa [hl] at hs

theorem IsTrivia.not_isNameCharacter {t : List Char} (h : IsTrivia t) :
    t.getLast?.all fun d => !isNameCharacter d := by
  have hclose : isNameCharacter ']' = false := by decide
  have hfeed : isNameCharacter '\n' = false := by decide
  induction h with
  | nil => rfl
  | @space c s hc _ ih =>
    have hn : isNameCharacter c = false := eq_false_of_isSpace (by decide) hc
    exact all_getLast?_append (t := [c]) (by simp [hn]) ih
  | @comment text s hc _ ih =>
    refine all_getLast?_append (t := '-' :: '-' :: text) ?_ ih
    cases hc with
    | @long level inside h hr =>
      have hl := getLast?_longBody_text h
      rw [longBody_text_eq hr] at hl
      simp [List.getLast?_cons, List.getLast?_append, hl, hclose]
    | line => simp [List.getLast?_cons, List.getLast?_append, hfeed]

theorem head?_drop_numeralTail (last : Char) (s : List Char) :
    (s.drop (numeralTail last s).length).head?.any isWord = false := by
  induction s generalizing last with
  | nil => rfl
  | cons c r ih =>
    rw [numeralTail]
    split
    case isTrue => exact ih c
    case isFalse hc =>
      have hw : isWord c → isNumeralCharacter c := fun hw => by
        rcases isWord_iff.mp hw with hw | rfl
        case inl => simp [isNumeralCharacter, Char.isAlphanum, hw]
        case inr => decide
      simp only [List.length_nil, List.drop_zero, List.head?_cons, Option.any_some]
      by_contra hn
      exact hc (by simp [hw (by simpa using hn)])

theorem not_isNameCharacter_of_mem_symbolTail {first d : Char} {s : List Char}
    (h : d ∈ symbolTail first s) : isNameCharacter d = false := by
  have hpairs : symbolPairs.all fun pair => (pair.drop 1).all fun d => !isNameCharacter d := by
    decide
  revert h
  fun_cases symbolTail first s
  case case1 hd =>
    rw [hd.2]
    intro h
    obtain rfl : d = '.' := by simpa using h
    decide
  case case2 hd hp =>
    intro h
    have hall := List.all_eq_true.mp (List.all_eq_true.mp hpairs _ hp) d h
    rwa [Bool.not_eq_true'] at hall
  case case3 => exact fun h => absurd h List.not_mem_nil

-- No token but a numeral ends inside a name, and a numeral does so in front of no letter.
theorem not_isNameCharacter_of_isNameStart {c : Char} {r : List Char}
    (h : (token c r).rest.head?.any isNameStart) :
    ((token c r).text.getLast?.all fun d => !isNameCharacter d) ∨
      (token c r).value = .number ∧ (token c r).rest.head?.any isWord = false := by
  have closes : tokenCloses c r := by
    by_contra hc
    have hb := head?_token_rest (by simpa using hc)
    cases hr : (token c r).rest with
    | nil => simp [hr] at h
    | cons d y =>
      have hd : d = '\n' ∨ d = '\r' := by simpa [hr, isLineBreak] using hb
      rcases hd with rfl | rfl <;> simp [hr, isNameStart] at h
  cases lead c r with
  | short hq =>
    rw [tokenCloses_short hq] at closes
    have hn : isNameCharacter c = false := by
      rcases isQuote_iff.mp hq with rfl | rfl <;> decide
    simp [token_short hq, List.getLast?_cons, getLast?_shortBody_text closes, hn]
  | numeral hq hd =>
    rw [token_numeral hq hd]
    exact .inr ⟨rfl, head?_drop_numeralTail c r⟩
  | name hs =>
    have hr := head?_dropWhile_any isNameCharacter r
    rw [token_name hs] at h
    cases hd : r.dropWhile isNameCharacter with
    | nil => simp [hd] at h
    | cons d y =>
      have hw : isNameStart d := by simpa [hd] using h
      have hn : isNameCharacter d = false := by simpa [hd] using hr
      simp [isNameCharacter, hw] at hn
  | @long level inside hf hl =>
    subst hf
    rw [tokenCloses_long hl] at closes
    have hn : isNameCharacter ']' = false := by decide
    have hlast := getLast?_longBody_text closes
    simp [token_long hl, List.getLast?_cons, List.getLast?_append, hlast, hn]
  | symbol hq hd hp hn hb =>
    have hc : isNameCharacter c = false := by simp [isNameCharacter, hn, hd]
    rw [(token_symbol hq hd hp hn hb).1]
    cases hl : (c :: symbolTail c r).getLast? with
    | none => exact .inl rfl
    | some d =>
      rcases List.mem_cons.mp (List.mem_of_getLast? hl) with rfl | hm
      case inl => simp [hc]
      case inr => simp [not_isNameCharacter_of_mem_symbolTail hm]

-- No token ends inside a word: the character in front of a letter behind it belongs to no name.
theorem not_isNameCharacter_of_isWord {c : Char} {r : List Char}
    (h : (token c r).rest.head?.any isWord) :
    (token c r).text.getLast?.all fun d => !isNameCharacter d := by
  have hstart : (token c r).rest.head?.any isNameStart := by
    cases hr : (token c r).rest with
    | nil => simp [hr] at h
    | cons d y => simpa using isNameStart_of_isWord (by simpa [hr] using h)
  refine (not_isNameCharacter_of_isNameStart hstart).resolve_right fun hn => ?_
  rw [hn.2] at h
  cases h

theorem not_isSpace_of_bare {c : Char} {r : List Char} (h : Bare (c :: r)) : isSpace c = false := by
  simpa using h.1

-- A token right in front of another one is closed.
theorem tokenCloses_of_bare {c d : Char} {r q : List Char} (h : (token d q).rest = c :: r)
    (hb : Bare (c :: r)) : tokenCloses d q := by
  by_contra hc
  have hbreak := head?_token_rest (by simpa using hc)
  have hspace : isSpace c := by
    have hc : c = '\n' ∨ c = '\r' := by simpa [h, isLineBreak] using hbreak
    rcases hc with rfl | rfl <;> decide
  rw [not_isSpace_of_bare hb] at hspace
  cases hspace

namespace Stands

variable {before q r y : List Char} {c d : Char}

theorem first (hs : (trivia s).2 = c :: r) : Stands start s [] (trivia s).1 c r where
  eq := by rw [← hs, trivia_append]
  bare := hs ▸ bare_trivia s
  apart := fun _ => (isTrivia_trivia_of_ne_nil (by simp [hs])).not_isNameCharacter
  exchange := fun _ => (isTrivia_trivia_of_ne_nil (by simp [hs])).lexFrom_append start _
  closed := not_runsOut_rest hs

-- What may follow the same tokens lets the token in front of them end where it ends.
theorem exchange_front (h : Stands start (token d q).rest earlier before c r)
    (hn : Neutral (c :: r) y) : Exchange d q (before ++ y) := by
  have hr := h.eq
  refine ⟨hr ▸ hn.prepend before, ?_⟩
  cases before with
  | cons => exact .inr (by rw [hr]; rfl)
  | nil => exact .inl (tokenCloses_of_bare hr h.bare)

-- A token that stands behind the first token of a text stands in the text.
theorem behind (hs : (trivia s).2 = d :: q)
    (h : Stands (start + size (trivia s).1 + size (token d q).text) (token d q).rest earlier before
      c r) :
    Stands start s (⟨(token d q).value, start + size (trivia s).1,
        start + size (trivia s).1 + size (token d q).text⟩ :: earlier)
      ((trivia s).1 ++ ((token d q).text ++ before)) c r where
  eq := by rw [List.append_assoc, List.append_assoc, ← h.eq, eq_trivia_token_rest hs]
  bare := h.bare
  apart := fun hw => by
    have htrivia : IsTrivia (trivia s).1 := isTrivia_trivia_of_ne_nil (by simp [hs])
    refine all_getLast?_append htrivia.not_isNameCharacter ?_
    have hl := h.apart hw
    have hr := h.eq
    cases before with
    | nil => simpa using not_isNameCharacter_of_isWord (by simpa [hr] using hw)
    | cons b before => simpa [List.getLast?_append, List.getLast?_cons] using hl
  exchange := fun {y} hn => by
    have hx := h.exchange_front hn
    have ht := congrArg Prod.snd (trivia_exchange hs hx)
    rw [List.append_assoc, List.append_assoc, lexFrom_eq_cons ht, trivia_exchange hs hx,
      (token_append hx.1 hx.2).1, h.exchange hn]
    simp only [size_append, Nat.add_assoc, List.cons_append]
  closed := h.closed ∘ not_runsOut_rest hs

end Stands

theorem exists_stands (h : lexFrom start s = earlier ++ t :: later) :
    ∃ before c r, Stands start s earlier before c r ∧
      t = ⟨(token c r).value, start + size before, start + size before + size (token c r).text⟩ ∧
      later = lexFrom t.stop (token c r).rest := by
  induction earlier generalizing start s with
  | nil =>
    cases hs : (trivia s).2 with
    | nil => simp [lexFrom_eq_nil hs] at h
    | cons c r =>
      rw [lexFrom_eq_cons hs, List.nil_append] at h
      obtain ⟨rfl, rfl⟩ := List.cons.inj h
      exact ⟨_, c, r, .first hs, rfl, rfl⟩
  | cons e earlier ih =>
    cases hs : (trivia s).2 with
    | nil => simp [lexFrom_eq_nil hs] at h
    | cons d q =>
      rw [lexFrom_eq_cons hs, List.cons_append] at h
      obtain ⟨rfl, hlater⟩ := List.cons.inj h
      obtain ⟨before, c, r, stands, ht, hlater⟩ := ih hlater
      refine ⟨_, c, r, stands.behind hs, ?_, hlater⟩
      rw [ht]
      simp only [size_append, Nat.add_assoc]

-- Every token stands for a piece of the text, and the tokens after it are those of the text behind
-- that piece, which ends inside a string or a comment only if the whole text does.
theorem lexFrom_eq_append (h : lexFrom start s = earlier ++ t :: later) :
    ∃ before text rest, s = before ++ (text ++ rest) ∧ text ≠ [] ∧ t.start = start + size before ∧
      t.stop = t.start + size text ∧ later = lexFrom t.stop rest ∧
      (runsOut s = false → runsOut rest = false) := by
  obtain ⟨before, c, r, stands, rfl, hlater⟩ := exists_stands h
  refine ⟨before, (token c r).text, (token c r).rest, ?_, token_text_ne_nil c r, rfl, rfl, hlater,
    stands.closed⟩
  rw [stands.eq]
  exact congrArg _ (token_splits c r).symm

theorem lexFrom_bounds (h : t ∈ lexFrom start s) : start ≤ t.start ∧ t.start < t.stop := by
  obtain ⟨earlier, later, h⟩ := List.append_of_mem h
  obtain ⟨before, text, rest, -, ht, hstart, hstop, -⟩ := lexFrom_eq_append h
  have := size_pos_of_ne_nil ht
  omega

theorem pairwise_lexFrom (start : Nat) (s : List Char) :
    (lexFrom start s).Pairwise fun t u => t.stop ≤ u.start := by
  induction s using lexInduction generalizing start with
  | nil s hs =>
    rw [lexFrom_eq_nil hs]
    exact .nil
  | cons s c r hs ih =>
    rw [lexFrom_eq_cons hs]
    exact .cons (fun u hu => (lexFrom_bounds hu).1) (ih _)

-- Tokens that are not empty and follow one another.
structure InOrder (tokens : List Token) : Prop where
  bounds : ∀ t ∈ tokens, t.start < t.stop
  pairwise : tokens.Pairwise fun t u => t.stop ≤ u.start

theorem InOrder.tail (h : InOrder (t :: later)) : InOrder later :=
  ⟨fun u hu => h.bounds u (.tail t hu), (List.pairwise_cons.mp h.pairwise).2⟩

theorem InOrder.of_append (h : InOrder (earlier ++ later)) : InOrder later :=
  ⟨fun u hu => h.bounds u (List.mem_append_right _ hu), (List.pairwise_append.mp h.pairwise).2.1⟩

-- Tokens that follow one another lie between the start of the first and the stop of the last.
theorem InOrder.between {first last : Token} {inner : List Token}
    (h : InOrder (first :: inner ++ last :: later)) :
    ∀ u ∈ first :: inner ++ [last], first.start ≤ u.start ∧ u.stop ≤ last.stop := by
  have hp := h.pairwise
  have hfirst := (List.pairwise_cons.mp hp).1
  have hlast := (List.pairwise_append.mp hp).2.2
  intro u hu
  have hl := h.bounds last (by simp)
  have hf := h.bounds first (by simp)
  rcases List.mem_append.mp hu with hu | hu
  case inl =>
    have := hlast u hu last List.mem_cons_self
    rcases List.mem_cons.mp hu with rfl | hu
    case inl => omega
    case inr =>
      have := hfirst u (List.mem_append_left _ hu)
      omega
  case inr =>
    obtain rfl := List.mem_singleton.mp hu
    have := hfirst u (by simp)
    omega

theorem inOrder_lexFrom (start : Nat) (s : List Char) : InOrder (lexFrom start s) :=
  ⟨fun _ hu => (lexFrom_bounds hu).2, pairwise_lexFrom start s⟩

theorem isNameStart_of_value_eq_name {c : Char} {r : List Char} {name : String}
    (h : (token c r).value = .name name) : isNameStart c := by
  cases lead c r with
  | short hq => simp [token_short hq] at h
  | numeral hq hd => simp [token_numeral hq hd] at h
  | name hs => exact hs
  | long hf hl =>
    subst hf
    simp [token_long hl] at h
  | symbol hq hd hp hn hb => simp [(token_symbol hq hd hp hn hb).1] at h

-- A token that is a name stands for the characters of that name.
theorem text_of_value_eq_name {c : Char} {r : List Char} {name : String}
    (h : (token c r).value = .name name) : (token c r).text = name.toList := by
  have hs := isNameStart_of_value_eq_name h
  rw [token_name hs] at h ⊢
  rw [← Kind.name.inj h, String.toList_ofList]

-- A token that is a symbol stands for the characters of that symbol.
theorem text_of_value_eq_symbol {c : Char} {r : List Char} {text : String}
    (h : (token c r).value = .symbol text) : (token c r).text = text.toList := by
  cases lead c r with
  | short hq => simp [token_short hq] at h
  | numeral hq hd => simp [token_numeral hq hd] at h
  | name hs => simp [token_name hs] at h
  | long hf hl =>
    subst hf
    simp [token_long hl] at h
  | symbol hq hd hp hn hb =>
    have ht := (token_symbol hq hd hp hn hb).1
    rw [ht] at h ⊢
    rw [← Kind.symbol.inj h, String.toList_ofList]

-- A program stands in its whole text behind what may stand in front of it.
theorem lex_eq (source : String) :
    ∃ skipped program, source.toList = skipped ++ program ∧
      lex source = lexFrom (size skipped) program :=
  ⟨_, _, (preamble_append source.toList).symm, rfl⟩

theorem inOrder_lex (source : String) : InOrder (lex source) :=
  inOrder_lexFrom _ _

theorem preamble_cons {c : Char} (hmark : c ≠ '\uFEFF') (hhash : c ≠ '#') (s : List Char) :
    preamble (c :: s) = ([], c :: s) := by
  unfold preamble
  split
  case h_1 h => exact absurd (List.cons.inj h).1 hmark
  case h_2 => rw [preamble.hashLine, if_neg (by simpa using hhash)]

-- A token at the start of a source. What follows it is read as if it stood on a line of its own.
theorem Begins.lex_append {text : List Char} {k : Kind} {rest : String}
    (h : Begins (text ++ rest.toList) k rest.toList) (hb : Bare (text ++ rest.toList))
    (hp : preamble (text ++ rest.toList) = ([], text ++ rest.toList)) (hne : text ≠ []) :
    lex (String.ofList text ++ rest) =
      ⟨k, 0, size text⟩ :: (lex ("\n" ++ rest)).map (Token.shift (size text - 1)) := by
  have hs : (String.ofList text ++ rest).toList = text ++ rest.toList := by simp
  have hsize : 1 + (size text - 1) = size text := by
    have := size_pos_of_ne_nil hne
    omega
  rw [lex, hs, hp, lex_line_feed_append, ← lexFrom_add, hsize]
  dsimp only [size_nil]
  rw [h.lexFrom_append hb, Nat.zero_add]

end LuaBundle.Lua

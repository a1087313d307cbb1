import LuaBundle.Source.Embed
import LuaBundle.Source.Requires
import LuaBundle.Proofs.Lua.Places
import LuaBundle.Proofs.Lua.Quote
import LuaBundle.Proofs.Source.Mention

namespace LuaBundle

open Lua Text

-- What a call with a bundled module's id says.
def callKinds (id : String) : List Kind :=
  [.name requireName, .symbol "(", .str id, .symbol ")"]

def Span.holds (span : Span) (t : Token) : Bool :=
  span.start ≤ t.start && t.stop ≤ span.stop

theorem Span.holds_iff {span : Span} {t : Token} :
    span.holds t ↔ span.start ≤ t.start ∧ t.stop ≤ span.stop := by
  simp [Span.holds]

-- What the tokens say once, for each call in turn, those inside its span are replaced by a call
-- with its id.
def substitute : List (Span × String) → List Token → List Kind
  | [], tokens => tokens.map Token.kind
  | (span, id) :: calls, tokens =>
    let later := tokens.dropWhile fun t => !span.holds t
    (tokens.takeWhile fun t => !span.holds t).map Token.kind ++
      (callKinds id ++ substitute calls (later.dropWhile span.holds))

section Substitute

variable {calls : List (Span × String)} {span : Span} {id : String} {t : Token}
  {tokens inner : List Token}

theorem substitute_cons (h : ∀ call ∈ calls, ¬ call.1.holds t) :
    substitute calls (t :: tokens) = t.kind :: substitute calls tokens := by
  cases calls with
  | nil => rfl
  | cons call calls =>
    have ht : call.1.holds t = false := by simpa using h call List.mem_cons_self
    simp [substitute, ht]

theorem substitute_append (hn : inner ≠ []) (hi : ∀ t ∈ inner, span.holds t)
    (ht : ∀ t ∈ tokens, ¬ span.holds t) :
    substitute ((span, id) :: calls) (inner ++ tokens) =
      callKinds id ++ substitute calls tokens := by
  obtain ⟨t, inner', rfl⟩ := List.exists_cons_of_ne_nil hn
  have hd : (inner' ++ tokens).dropWhile span.holds = tokens := by
    rw [List.dropWhile_append_of_pos fun u hu => hi u (.tail t hu)]
    cases tokens with
    | nil => rfl
    | cons u tokens => exact List.dropWhile_cons_of_neg (ht u List.mem_cons_self)
  have hf : span.holds t = true := hi t List.mem_cons_self
  simp [substitute, hf, hd]

end Substitute

theorem begins_requireName (y : List Char) :
    Begins (requireName.toList ++ '(' :: y) (.name requireName) ('(' :: y) :=
  begins_name (by decide) (by simp [isNameCharacter, isNameStart])

theorem toList_requireCall (id : String) (y : List Char) :
    (requireCall id).toList ++ y =
      requireName.toList ++ '(' :: ((quote id).toList ++ ')' :: y) := by
  simp [requireCall]

theorem kinds_requireCall (id : String) (y : List Char) :
    kinds ((requireCall id).toList ++ y) = callKinds id ++ kinds y := by
  rw [toList_requireCall, (begins_requireName _).kinds_eq,
    (begins_loneSymbol (c := '(') (by decide)).kinds_eq, (begins_quote id _).kinds_eq,
    (begins_loneSymbol (c := ')') (by decide)).kinds_eq]
  rfl

theorem runsOut_requireCall (id : String) (y : List Char) :
    runsOut ((requireCall id).toList ++ y) = runsOut y := by
  rw [toList_requireCall, (begins_requireName _).runsOut_eq,
    (begins_loneSymbol (c := '(') (by decide)).runsOut_eq, (begins_quote id _).runsOut_eq,
    (begins_loneSymbol (c := ')') (by decide)).runsOut_eq]

-- Rewriting along the tokens of a text that stands at an offset: a token is kept, or the call that
-- begins with it is replaced.
inductive Rewrites : Nat → List Char → List (Span × String) → List Char → Prop
  | done {n : Nat} {s : List Char} (h : (trivia s).2 = []) : Rewrites n s [] s
  | keep {n : Nat} {s r x : List Char} {c : Char} {calls : List (Span × String)}
      (h : (trivia s).2 = c :: r)
      (hlater : ∀ call ∈ calls, n + size (trivia s).1 + size (token c r).text ≤ call.1.start)
      (more : Rewrites (n + size (trivia s).1 + size (token c r).text) (token c r).rest calls x) :
      Rewrites n s calls ((trivia s).1 ++ ((token c r).text ++ x))
  | call {n : Nat} {s r rest x : List Char} {c : Char} {calls : List (Span × String)} {span : Span}
      {id : String} {inner : List Token} (h : (trivia s).2 = c :: r)
      (hname : (token c r).value = .name "require")
      (hrun : runsOut s = false → runsOut rest = false) (hn : inner ≠ [])
      (hinner : ∀ t ∈ inner, span.holds t) (ht : lexFrom n s = inner ++ lexFrom span.stop rest)
      (more : Rewrites span.stop rest calls x) :
      Rewrites n s ((span, id) :: calls) ((trivia s).1 ++ ((requireCall id).toList ++ x))

-- A rewritten text starts as the text does, up to the first call that is replaced.
def StartsAlike (s x : List Char) : Prop :=
  x = s ∨ ∃ p r y, s = p ++ 'r' :: r ∧ x = p ++ '_' :: y

namespace StartsAlike

variable {s x : List Char}

theorem prepend (h : StartsAlike s x) (p : List Char) : StartsAlike (p ++ s) (p ++ x) := by
  rcases h with rfl | ⟨q, r, y, rfl, rfl⟩
  case inl => exact .inl rfl
  case inr => exact .inr ⟨p ++ q, r, y, by simp, by simp⟩

theorem neutral (h : StartsAlike s x) : Neutral s x := by
  rcases h with rfl | ⟨p, r, y, rfl, rfl⟩
  case inl => exact .rfl
  case inr =>
    refine Neutral.prepend ⟨.inr (.inr ⟨by simp [isWord], by simp [isWord]⟩), ?_⟩ p
    simp [longLevel?]

theorem head?_eq (h : StartsAlike s x) (hs : s.head? ≠ some 'r') : x.head? = s.head? := by
  rcases h with rfl | ⟨p, r, y, rfl, rfl⟩
  case inl => rfl
  case inr =>
    cases p with
    | nil => simp at hs
    | cons c p => rfl

theorem exchange (c : Char) (r : List Char) (h : StartsAlike (token c r).rest x) :
    Exchange c r x := by
  refine ⟨h.neutral, ?_⟩
  cases hc : tokenCloses c r with
  | true => exact .inl rfl
  | false =>
    refine .inr (h.head?_eq fun hr => ?_)
    have := head?_token_rest hc
    simp [hr, isLineBreak] at this

end StartsAlike

namespace Rewrites

variable {n : Nat} {s x : List Char} {calls : List (Span × String)}

theorem startsAlike (h : Rewrites n s calls x) : StartsAlike s x := by
  induction h with
  | done => exact .inl rfl
  | @keep n s r x c calls hs _ _ ih =>
    have := (ih.prepend (token c r).text).prepend (trivia s).1
    rwa [eq_trivia_token_rest hs] at this
  | @call n s r rest x c calls span id inner hs hname =>
    have hs' := eq_trivia_token_rest hs
    have hr : "require".toList = 'r' :: "equire".toList := rfl
    have hn : requireName.toList = '_' :: "_require".toList := rfl
    rw [text_of_value_eq_name hname, hr, List.cons_append] at hs'
    rw [toList_requireCall, hn, List.cons_append]
    exact .inr ⟨(trivia s).1, _, _, hs'.symm, rfl⟩

theorem kinds_eq (h : Rewrites n s calls x) : kinds x = substitute calls (lexFrom n s) := by
  induction h with
  | @done n s hs => rw [substitute, lexFrom_map_kind]
  | @keep n s r x c calls hs hlater more ih =>
    have hx := more.startsAlike.exchange c r
    rw [kinds_exchange hs hx, ih, lexFrom_eq_cons hs, substitute_cons]
    intro call hc hh
    have hpos := size_pos_of_ne_nil (token_text_ne_nil c r)
    have := hlater call hc
    simp only [Span.holds_iff] at hh
    omega
  | @call n s r rest x c calls span id inner hs hname hrun hn hinner ht more ih =>
    have htrivia : IsTrivia (trivia s).1 := isTrivia_trivia_of_ne_nil (by simp [hs])
    rw [htrivia.kinds_append, kinds_requireCall, ih, ht, substitute_append hn hinner]
    intro t ht hh
    have := lexFrom_bounds ht
    simp only [Span.holds_iff] at hh
    omega

theorem not_runsOut (h : Rewrites n s calls x) (hs : runsOut s = false) : runsOut x = false := by
  induction h with
  | done => exact hs
  | @keep n s r x c calls hr hlater more ih =>
    have hx := more.startsAlike.exchange c r
    have hempty : (!tokenCloses c r && x.isEmpty) = false := by
      cases hc : tokenCloses c r with
      | true => rfl
      | false =>
        have hx := hx.2.resolve_left (by simp [hc])
        have hne : (token c r).rest ≠ [] := fun hn => by
          simp [closes_of_not_runsOut hr hs hn] at hc
        cases x with
        | nil => exact absurd (List.head?_eq_none_iff.mp hx.symm) hne
        | cons d x => rfl
    rw [runsOut_exchange hr hx, hempty, ih (not_runsOut_rest hr hs)]
    rfl
  | @call n s r rest x c calls span id inner hr hname hrun hn hinner ht more ih =>
    have htrivia : IsTrivia (trivia s).1 := isTrivia_trivia_of_ne_nil (by simp [hr])
    rw [htrivia.runsOut_append, runsOut_requireCall]
    exact ih (hrun hs)

end Rewrites

end LuaBundle

import Mathlib.Data.List.Forall2
import LuaBundle.Proofs.Source.Outline

namespace LuaBundle

open Lua

-- The text of a string. Other tokens have none.
def Lua.Kind.value : Kind → String
  | .str value => value
  | _ => ""

-- Tokens that differ in the text of a string at most.
inductive Lua.Kind.Similar : Kind → Kind → Prop
  | name {text : String} : Similar (.name text) (.name text)
  | str {value value' : String} : Similar (.str value) (.str value')
  | number : Similar .number .number
  | symbol {text : String} : Similar (.symbol text) (.symbol text)

namespace Lua.Token

variable {t t' : Token}

theorem isSymbol_similar (h : t.kind.Similar t'.kind) (text : String) :
    t'.isSymbol text = t.isSymbol text := by
  obtain ⟨kind, _, _⟩ := t
  obtain ⟨kind', _, _⟩ := t'
  cases (show kind.Similar kind' from h) <;> simp [isSymbol]

theorem isName_similar (h : t.kind.Similar t'.kind) (text : String) :
    t'.isName text = t.isName text := by
  obtain ⟨kind, _, _⟩ := t
  obtain ⟨kind', _, _⟩ := t'
  cases (show kind.Similar kind' from h) <;> simp [isName]

theorem value_of_isSymbol {text : String} (h : t.isSymbol text) : t.kind.value = "" := by
  rw [show t.kind = .symbol text by simpa [isSymbol] using h]
  rfl

end Lua.Token

namespace Mention

variable {R : Token → Token → Prop} {before before' : Option Token} {t t' : Token}
  {after after' tokens tokens' : List Token}

theorem Beside.of_similar (h : t.kind.Similar t'.kind) : Beside (some t) (some t') := by
  constructor <;> simp [isForeign, Token.isSymbol_similar h, Token.isName_similar h]

-- Arguments of two static calls, token by token related, with the text and the end of each.
inductive Argument (R : Token → Token → Prop) :
    List Token → List Token → String × Nat → String × Nat → Prop
  | last {t t' : Token} {later later' : List Token} (h : R t t') :
      Argument R (t :: later) (t' :: later') (t.kind.value, t.stop) (t'.kind.value, t'.stop)
  | cons {t t' : Token} {after after' : List Token} {literal literal' : String} {stop stop' : Nat}
      (h : R t t') (more : Argument R after after' (literal, stop) (literal', stop')) :
      Argument R (t :: after) (t' :: after') (t.kind.value ++ literal, stop)
        (t'.kind.value ++ literal', stop')

-- What the first argument says determines what the second says where tokens determine the strings
-- related to them.
theorem Argument.exists_append {p p' : String × Nat} {value : Token → String}
    (hv : ∀ t t', R t t' → t'.kind.value = value t) (h : Argument R after after' p p') :
    ∃ inner last later, after = inner ++ last :: later ∧ p.2 = last.stop ∧
      p.1 = String.join ((inner ++ [last]).map (·.kind.value)) ∧
      p'.1 = String.join ((inner ++ [last]).map value) := by
  induction h with
  | @last t t' later _ h =>
    exact ⟨[], t, later, rfl, rfl, by simp [String.join_cons], by simp [String.join_cons, hv _ _ h]⟩
  | @cons t t' _ _ _ _ _ _ h _ ih =>
    obtain ⟨inner, last, later, rfl, hstop, hliteral, hliteral'⟩ := ih
    refine ⟨t :: inner, last, later, rfl, hstop, ?_, ?_⟩
    · rw [List.cons_append, List.map_cons, String.join_cons, ← hliteral]
    · rw [List.cons_append, List.map_cons, String.join_cons, ← hliteral', hv _ _ h]

-- The ends of two related tokens.
def Stops (R : Token → Token → Prop) (tokens : List Token) (stop stop' : Nat) : Prop :=
  ∃ t ∈ tokens, ∃ t', R t t' ∧ t.stop = stop ∧ t'.stop = stop'

-- What two tokens in front of related tokens are: the same, with related arguments and ends.
inductive Corresponds (R : Token → Token → Prop) (after after' : List Token) :
    Mention → Mention → Prop
  | static {literal literal' : String} {stop stop' : Nat}
      (h : Argument R after after' (literal, stop) (literal', stop')) :
      Corresponds R after after' (.static literal stop) (.static literal' stop')
  | dynamic {stop stop' : Option Nat} (h : Option.Rel (Stops R after) stop stop') :
      Corresponds R after after' (.dynamic stop) (.dynamic stop')
  | value : Corresponds R after after' .value .value
  | other : Corresponds R after after' .other .other

section Similar

variable (hR : ∀ t t', R t t' → t.kind.Similar t'.kind)

include hR

-- What is related to a list that starts with a string starts with a string.
theorem exists_str {part : String} {start stop : Nat}
    (h : List.Forall₂ R (⟨.str part, start, stop⟩ :: after) tokens') :
    ∃ part' start' stop' after', tokens' = ⟨.str part', start', stop'⟩ :: after' ∧
      R ⟨.str part, start, stop⟩ ⟨.str part', start', stop'⟩ ∧ List.Forall₂ R after after' := by
  obtain ⟨⟨kind', start', stop'⟩, after', ht, hafter, rfl⟩ := List.forall₂_cons_left_iff.mp h
  cases (show (Kind.str part).Similar kind' from hR _ _ ht) with
  | str => exact ⟨_, _, _, _, rfl, ht, hafter⟩

theorem staticArgument?_similar (h : List.Forall₂ R tokens tokens') :
    Option.Rel (Argument R tokens tokens') (staticArgument? tokens) (staticArgument? tokens') := by
  fun_induction staticArgument? tokens generalizing tokens' with
  | case1 part start stop next rest hclose =>
    obtain ⟨part', start', stop', after', rfl, ht, hafter⟩ := exists_str hR h
    obtain ⟨next', rest', hn, hrest, rfl⟩ := List.forall₂_cons_left_iff.mp hafter
    have hclose' := (Token.isSymbol_similar (hR _ _ hn) ")").trans hclose
    have hlast : Argument R (next :: rest) (next' :: rest') _ _ := .last hn
    have hargument := Argument.cons ht hlast
    rw [Token.value_of_isSymbol hclose, Token.value_of_isSymbol hclose'] at hargument
    rw [staticArgument?, if_pos hclose']
    exact .some (by simpa [Kind.value] using hargument)
  | case2 part start stop next rest hclose hdots ih =>
    obtain ⟨part', start', stop', after', rfl, ht, hafter⟩ := exists_str hR h
    obtain ⟨next', rest', hn, hrest, rfl⟩ := List.forall₂_cons_left_iff.mp hafter
    have hsymbol := Token.isSymbol_similar (hR _ _ hn)
    have hdots' := (hsymbol "..").trans hdots
    rw [staticArgument?, if_neg (by rwa [hsymbol]), if_pos hdots']
    have hmore := ih hrest
    generalize staticArgument? rest = p at hmore
    generalize staticArgument? rest' = p' at hmore
    cases hmore with
    | none => exact .none
    | some hp =>
      have hargument := Argument.cons ht (.cons hn hp)
      rw [Token.value_of_isSymbol hdots, Token.value_of_isSymbol hdots'] at hargument
      exact .some (by simpa [Kind.value] using hargument)
  | case3 part start stop next rest hclose hdots =>
    obtain ⟨part', start', stop', after', rfl, ht, hafter⟩ := exists_str hR h
    obtain ⟨next', rest', hn, hrest, rfl⟩ := List.forall₂_cons_left_iff.mp hafter
    have hsymbol := Token.isSymbol_similar (hR _ _ hn)
    rw [staticArgument?, if_neg (by rwa [hsymbol]), if_neg (by rwa [hsymbol])]
    exact .none
  | case4 tokens hother =>
    cases h with
    | nil => exact .none
    | @cons t t' _ _ ht hafter =>
      obtain ⟨kind, start, stop⟩ := t
      obtain ⟨kind', start', stop'⟩ := t'
      cases (show kind.Similar kind' from hR _ _ ht) with
      | name | number | symbol => exact .none
      | str =>
        cases hafter with
        | nil => exact .none
        | cons => exact absurd rfl (hother _ _ _ _ _)

theorem closing?_similar (h : List.Forall₂ R tokens tokens') (depth : Nat) :
    Option.Rel (Stops R tokens) (closing? depth tokens) (closing? depth tokens') := by
  have mono {t : Token} {after : List Token} {stop stop' : Option Nat}
      (h : Option.Rel (Stops R after) stop stop') :
      Option.Rel (Stops R (t :: after)) stop stop' := by
    cases h with
    | none => exact .none
    | some h =>
      obtain ⟨u, hu, hstop⟩ := h
      exact .some ⟨u, .tail t hu, hstop⟩
  induction h generalizing depth with
  | nil => exact .none
  | @cons t t' _ _ ht _ ih =>
    have hsymbol := Token.isSymbol_similar (hR _ _ ht)
    have hopening : t'.isOpening = t.isOpening := by simp only [Token.isOpening, hsymbol]
    have hclosing : t'.isClosing = t.isClosing := by simp only [Token.isClosing, hsymbol]
    rw [closing?, closing?, hopening, hclosing]
    split
    case isTrue => exact mono (ih _)
    case isFalse =>
      split
      case isTrue =>
        split
        case isTrue => exact .some ⟨t, List.mem_cons_self, t', ht, rfl, rfl⟩
        case isFalse => exact mono (ih _)
      case isFalse => exact mono (ih _)

theorem of_similar (hb : Beside before before') (ht : R t t') (ha : List.Forall₂ R after after') :
    Corresponds R after after' (of before t after) (of before' t' after') := by
  rw [Mention.of.eq_def before, Mention.of.eq_def before', hb.foreign,
    Token.isName_similar (hR _ _ ht)]
  split
  case isTrue => exact .other
  case isFalse =>
    cases ha with
    | nil => exact .value
    | @cons next next' rest rest' hn hrest =>
      have hclosing := closing?_similar hR (.cons hn hrest) 0
      have hargument := staticArgument?_similar hR hrest
      have hsymbol := Token.isSymbol_similar (hR _ _ hn)
      have hopen : ∀ {p p' : String × Nat}, next.isSymbol "(" → Argument R rest rest' p p' →
          Argument R (next :: rest) (next' :: rest') p p' := by
        intro p p' ho hp
        have h := Argument.cons hn hp
        rw [Token.value_of_isSymbol ho, Token.value_of_isSymbol ((hsymbol _).trans ho)] at h
        simpa using h
      obtain ⟨kind, start, stop⟩ := next
      obtain ⟨kind', start', stop'⟩ := next'
      cases (show kind.Similar kind' from hR _ _ hn) with
      | str => exact .static (.last hn)
      | name | number | symbol =>
        dsimp only
        rw [hsymbol, hsymbol, hsymbol, hb.declares]
        split
        case isTrue ho =>
          generalize staticArgument? rest = p at hargument
          generalize staticArgument? rest' = p' at hargument
          cases hargument with
          | none => exact .dynamic hclosing
          | some hp => exact .static (hopen ho hp)
        case isFalse =>
          split
          case isTrue => exact .dynamic hclosing
          case isFalse =>
            split
            case isTrue => exact .other
            case isFalse => exact .value

end Similar
end Mention

namespace Requires

variable {R : Token → Token → Prop} {C : StaticCall → StaticCall → Prop} {V : Span → Span → Prop}
  {E : DynamicCall → DynamicCall → Prop} {source source' : String} {lines lines' : Lines}
  {before before' : Option Token} {tokens tokens' earlier : List Token}

-- Two scans agree: both find a dynamic call, with a relation between the two, or else calls and
-- values that are one by one related.
def Agree (C : StaticCall → StaticCall → Prop) (V : Span → Span → Prop)
    (E : DynamicCall → DynamicCall → Prop) :
    Except DynamicCall Requires → Except DynamicCall Requires → Prop
  | .ok r, .ok r' => List.Forall₂ C r.calls r'.calls ∧ List.Forall₂ V r.valueUses r'.valueUses
  | .error e, .error e' => E e e'
  | _, _ => False

theorem Agree.add {result result' : Except DynamicCall Requires} {f f' : Requires → Requires}
    (h : Agree C V E result result')
    (hf : ∀ {r r'}, List.Forall₂ C r.calls r'.calls → List.Forall₂ V r.valueUses r'.valueUses →
      Agree C V E (.ok (f r)) (.ok (f' r'))) :
    Agree C V E (do return f (← result)) (do return f' (← result')) := by
  cases result with
  | error e => cases result' <;> exact h
  | ok r =>
    cases result' with
    | error e' => exact h
    | ok r' => exact hf h.1 h.2

-- What related tokens carry over to what a scan says about them: one field for each kind of
-- mention.
structure Carries (R : Token → Token → Prop) (C : StaticCall → StaticCall → Prop)
    (V : Span → Span → Prop) (E : DynamicCall → DynamicCall → Prop) (source source' : String)
    (lines lines' : Lines) (tokens : List Token) : Prop where
  similar : ∀ t t', R t t' → t.kind.Similar t'.kind
  call : ∀ {earlier t after t' after' literal stop literal' stop'},
    tokens = earlier ++ t :: after → t.kind = .name "require" → R t t' →
      Mention.Argument R after after' (literal, stop) (literal', stop') →
        C ⟨literal, lines.span t.start stop⟩ ⟨literal', lines'.span t'.start stop'⟩
  value : ∀ {t t'}, R t t' → V (lines.span t.start t.stop) (lines'.span t'.start t'.stop)
  dynamic : ∀ {earlier t after t' stop stop'}, tokens = earlier ++ t :: after → R t t' →
    Option.Rel (Mention.Stops R after) stop stop' →
      E (dynamicCall source lines t.start stop) (dynamicCall source' lines' t'.start stop')

-- By induction on the tokens: the first of them is the same mention on both sides, and what it adds
-- is related.
theorem Carries.agree (hc : Carries R C V E source source' lines lines' (earlier ++ tokens))
    (h : List.Forall₂ R tokens tokens') (hb : Mention.Beside before before') :
    Agree C V E (ofTokens source lines before tokens)
      (ofTokens source' lines' before' tokens') := by
  induction h generalizing before before' earlier with
  | nil => exact ⟨.nil, .nil⟩
  | @cons t t' after after' ht hmore ih =>
    have hrest := @ih (some t) (some t') (earlier ++ [t]) (by simpa using hc)
      (.of_similar (hc.similar _ _ ht))
    rw [ofTokens, ofTokens]
    generalize hm : Mention.of before t after = m
    generalize hm' : Mention.of before' t' after' = m'
    have hcorresponds := Mention.of_similar hc.similar hb ht hmore
    rw [hm, hm'] at hcorresponds
    generalize ofTokens source lines (some t) after = result at hrest
    generalize ofTokens source' lines' (some t') after' = result' at hrest
    cases hcorresponds with
    | dynamic hstop => exact hc.dynamic rfl ht hstop
    | other => exact hrest
    | static hargument =>
      have hname := (Mention.of_eq_static_iff.mp hm).1.1
      exact hrest.add fun hcalls hvalues =>
        ⟨.cons (hc.call rfl hname ht hargument) hcalls, hvalues⟩
    | value => exact hrest.add fun hcalls hvalues => ⟨hcalls, .cons (hc.value ht) hvalues⟩

end Requires
end LuaBundle

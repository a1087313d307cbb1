import LuaBundle.Proofs.Source.Outline
import LuaBundle.Proofs.Source.Embed
import LuaBundle.Proofs.Source.Scan

namespace LuaBundle

open Lua

theorem Mention.IsArgument.beside {t t' : Token} (h : IsArgument t) (h' : IsArgument t') :
    Beside (some t) (some t') := by
  have plain {t : Token} (h : IsArgument t) :
      isForeign (some t) = false ∧ (some t).any (·.isName "local") = false := by
    rcases h with ⟨part, h⟩ | h | h | h <;> simp [isForeign, Token.isSymbol, Token.isName, h]
  exact ⟨(plain h').1.trans (plain h).1.symm, (plain h').2.trans (plain h).2.symm⟩

namespace Requires

-- What stands for tokens once the static calls with chosen literals are calls of bundled modules
-- and all else says the same.
inductive Replaced (chosen : String → Bool) : Option Token → List Token → List Token → Prop
  | nil {before : Option Token} : Replaced chosen before [] []
  | keep {before : Option Token} {t t' : Token} {after after' : List Token}
      (hm : ∀ literal stop, Mention.of before t after = .static literal stop →
        chosen literal = false)
      (hk : t'.kind = t.kind) (more : Replaced chosen (some t) after after') :
      Replaced chosen before (t :: after) (t' :: after')
  | call {before : Option Token} {t last close : Token} {inner later call later' : List Token}
      {literal id : String} {stop : Nat}
      (hm : Mention.of before t (inner ++ last :: later) = .static literal stop)
      (hc : chosen literal) (hi : ∀ u ∈ inner ++ [last], Mention.IsArgument u)
      (hcall : (call ++ [close]).map Token.kind = callKinds id)
      (more : Replaced chosen (some last) later later') :
      Replaced chosen before (t :: (inner ++ last :: later)) (call ++ close :: later')

section Replaced

variable {chosen : String → Bool} {before before' : Option Token} {tokens tokens' : List Token}
  {source source' : String}

-- The replaced call begins with a name, as the call in its place does.
theorem Replaced.alike (h : Replaced chosen before tokens tokens') :
    Mention.Alike (fun _ _ => True) tokens tokens' := by
  induction h with
  | nil => exact .nil
  | keep _ hk _ ih => exact .cons hk trivial ih
  | @call before t last close inner later call later' literal id stop hm _ _ hcall _ _ =>
    have ht := (Mention.of_eq_static_iff.mp hm).1.1
    cases call with
    | nil => simp [callKinds] at hcall
    | cons u call => exact .name ht (List.cons.inj hcall).1

-- What is left of an outline once the chosen literals are taken away.
def without (chosen : String → Bool) (told : List String × Nat) : List String × Nat :=
  (told.1.filter (!chosen ·), told.2)

-- By induction on the replacement: what a mention is depends on the tokens before and behind it,
-- and a call that is put in differs there from the call that it replaces in nothing but a name.
theorem Replaced.outline?_eq (source source' : String) (lines lines' : Lines)
    (h : Replaced chosen before tokens tokens') (hb : Mention.Beside before before') :
    outline? source' lines' before' tokens' =
      (outline? source lines before tokens).map (without chosen) := by
  induction h generalizing before' with
  | nil => rfl
  | @keep before t t' after after' hm hk more ih =>
    rw [outline?_cons, outline?_cons, ← Mention.tell_unplaced, Mention.unplaced_of hk hb more.alike,
      Mention.tell_unplaced, ih (.of_kind hk)]
    cases hof : Mention.of before t after with
    | static literal stop =>
      have hc := hm literal stop hof
      cases outline? source lines (some t) after <;> simp [Mention.tell, without, hc]
    | value => cases outline? source lines (some t) after <;> simp [Mention.tell, without]
    | dynamic | other => rfl
  | @call before t last close inner later call later' literal id stop hm hc hi hcall more ih =>
    have hclose : close.kind = .symbol ")" := by
      have := congrArg List.getLast? hcall
      simpa [callKinds] using this
    have hn : ∀ u ∈ call ++ [close], u.kind ≠ .name "require" := by
      intro u hu hk
      have := hcall ▸ List.mem_map_of_mem hu
      simp [hk, callKinds, requireName] at this
    rw [outline?_append hn, outline?_cons, hm, outline?_append fun u hu => (hi u hu).ne_name _,
      ih ((hi last (by simp)).beside (.inr (.inr (.inl hclose))))]
    cases outline? source lines (some last) later <;> simp [Mention.tell, without, hc]

-- A source whose tokens stand for those of a source that scans also scans.
theorem exists_of_replaced {r : Requires} (h : Requires.of source = .ok r)
    (hr : Replaced chosen none (lex source) (lex source')) :
    ∃ r', Requires.of source' = .ok r' ∧ r'.outline = without chosen r.outline := by
  have hsource : outline? source (.of source) none (lex source) = some r.outline :=
    congrArg (fun result => result.toOption.map outline) h
  have houtline := hr.outline?_eq source source' (.of source) (.of source') ⟨rfl, rfl⟩
  rw [hsource] at houtline
  cases h' : Requires.of source' with
  | error e => simp [outline?, show ofTokens _ _ _ _ = _ from h', Except.toOption] at houtline
  | ok r' =>
    rw [outline?, show ofTokens _ _ _ _ = _ from h'] at houtline
    exact ⟨r', rfl, Option.some.inj houtline⟩

end Replaced

section Substitute

variable {lines : Lines} {before : Option Token} {t last : Token}
  {tokens inner after later : List Token} {call : StaticCall} {chosen : String → Bool}

theorem filter_staticCalls_cons
    (h : ∀ literal stop, Mention.of before t after = .static literal stop → chosen literal = false) :
    (staticCalls lines before (t :: after)).filter (chosen ·.literal) =
      (staticCalls lines (some t) after).filter (chosen ·.literal) := by
  rw [staticCalls_cons, List.filter_append]
  cases hof : Mention.of before t after with
  | static literal stop => simp [call?, h literal stop hof]
  | dynamic | value | other => rfl

-- A token in front of all calls stands in none of them.
theorem not_holds_of_mem_staticCalls (ho : InOrder (t :: after))
    (h : call ∈ staticCalls lines before after) : ¬ call.span.holds t := by
  obtain ⟨u, hu, hstart⟩ := exists_token_of_mem_staticCalls h
  have := (List.pairwise_cons.mp ho.pairwise).1 u hu
  have := ho.bounds t (by simp)
  rw [Span.holds_iff, hstart]
  omega

-- The span of a call holds the tokens of the call and none behind it.
theorem holds_span (lines : Lines) (ho : InOrder (t :: inner ++ last :: later)) :
    (∀ u ∈ t :: inner ++ [last], (lines.span t.start last.stop).holds u) ∧
      ∀ u ∈ later, ¬ (lines.span t.start last.stop).holds u := by
  refine ⟨fun u hu => Span.holds_iff.mpr (ho.between u hu), fun u hu => ?_⟩
  have := (List.pairwise_cons.mp ho.of_append.pairwise).1 u hu
  have := ho.bounds u (by simp [hu])
  rw [Span.holds_iff]
  show ¬ (t.start ≤ u.start ∧ u.stop ≤ last.stop)
  omega

theorem not_holds_of_mem_kept {kept : List (Span × String)} (ho : InOrder (t :: after))
    (hk : kept.map Prod.fst =
      ((staticCalls lines before after).filter (chosen ·.literal)).map StaticCall.span) :
    ∀ call ∈ kept, ¬ call.1.holds t := by
  intro call hc
  have hmem := hk ▸ List.mem_map_of_mem (f := Prod.fst) hc
  obtain ⟨static, hstatic, hspan⟩ := List.mem_map.mp hmem
  rw [← hspan]
  exact not_holds_of_mem_staticCalls ho (List.mem_filter.mp hstatic).1

-- Tokens that say what a call with an id says, the last of them by itself, and those behind it.
theorem exists_call_of_kinds {id : String} {more : List Kind}
    (h : tokens.map Token.kind = callKinds id ++ more) :
    ∃ call close later, tokens = call ++ close :: later ∧
      (call ++ [close]).map Token.kind = callKinds id ∧ later.map Token.kind = more := by
  obtain ⟨callTokens, later, rfl, hcall, hlater⟩ := List.map_eq_append_iff.mp h
  rcases callTokens.eq_nil_or_concat with rfl | ⟨call, close, rfl⟩
  case inl => simp [callKinds] at hcall
  case inr => exact ⟨call, close, later, by simp, by simpa using hcall, hlater⟩

-- Substitution at all static calls with chosen literals replaces them.
theorem replaced_of_substitute (lines : Lines) {before : Option Token} {tokens tokens' : List Token}
    {kept : List (Span × String)} (ho : InOrder tokens)
    (hk : kept.map Prod.fst =
      ((staticCalls lines before tokens).filter (chosen ·.literal)).map StaticCall.span)
    (ht : tokens'.map Token.kind = substitute kept tokens) :
    Replaced chosen before tokens tokens' := by
  match tokens with
  | [] =>
    obtain rfl : kept = [] := by simpa [staticCalls, mentions] using hk
    obtain rfl : tokens' = [] := by simpa [substitute] using ht
    exact .nil
  | t :: after =>
    by_cases hs : ∃ literal stop, Mention.of before t after = .static literal stop ∧ chosen literal
    case pos =>
      obtain ⟨literal, stop, hm, hc⟩ := hs
      obtain ⟨inner, last, later, rfl, rfl, hi⟩ := (Mention.of_eq_static_iff.mp hm).2.exists_append
      rw [staticCalls_cons, hm, staticCalls_append hi] at hk
      simp only [call?, Option.toList_some, List.singleton_append, List.filter_cons, hc, if_true,
        List.map_cons] at hk
      obtain ⟨⟨span, id⟩, kept, rfl, rfl, hrest⟩ := List.map_eq_cons_iff.mp hk
      obtain ⟨hinner, hlater⟩ := holds_span lines ho
      have hsub : substitute ((lines.span t.start last.stop, id) :: kept) _ = _ :=
        substitute_append (by simp) hinner hlater
      rw [List.append_assoc, List.singleton_append, List.cons_append] at hsub
      rw [hsub] at ht
      obtain ⟨call, close, later', rfl, hcall, hlater'⟩ := exists_call_of_kinds ht
      exact .call hm hc hi hcall (replaced_of_substitute lines ho.tail.of_append.tail hrest hlater')
    case neg =>
      have hm (literal : String) (stop : Nat) (h : Mention.of before t after = .static literal stop) :
          chosen literal = false := by
        by_contra hc
        exact hs ⟨literal, stop, h, by simpa using hc⟩
      rw [filter_staticCalls_cons hm] at hk
      rw [substitute_cons (not_holds_of_mem_kept ho hk)] at ht
      obtain ⟨t', after', rfl, hkind, hrest⟩ := List.map_eq_cons_iff.mp ht
      exact .keep hm hkind (replaced_of_substitute lines ho.tail hk hrest)
termination_by tokens.length

end Substitute

end Requires
end LuaBundle

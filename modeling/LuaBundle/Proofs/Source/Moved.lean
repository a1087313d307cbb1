import Mathlib.Data.List.Forall2
import LuaBundle.Proofs.Source.Outline
import LuaBundle.Proofs.Source.Replaced

namespace LuaBundle

open Lua

-- A token for one that says the same and stands as far from `m` as it stands from `m'`.
structure Lua.Token.Moved (m m' : Nat) (t t' : Token) : Prop where
  kind : t'.kind = t.kind
  start : t.start + m' = t'.start + m
  stop : t.stop + m' = t'.stop + m

-- A span for one that lies as far from `m` as it lies from `m'`.
structure Span.Moved (m m' : Nat) (a a' : Span) : Prop where
  start : a.start + m' = a'.start + m
  stop : a.stop + m' = a'.stop + m

structure StaticCall.Moved (m m' : Nat) (c c' : StaticCall) : Prop where
  literal : c'.literal = c.literal
  span : c.span.Moved m m' c'.span

theorem Lua.moved_lexFrom (m m' : Nat) (s : List Char) :
    List.Forall₂ (Token.Moved m m') (lexFrom m s) (lexFrom m' s) := by
  have hm := lexFrom_add 0 m s
  have hm' := lexFrom_add 0 m' s
  rw [Nat.zero_add] at hm hm'
  rw [hm, hm', List.forall₂_map_left_iff, List.forall₂_map_right_iff]
  refine List.forall₂_same.mpr fun t _ => ⟨rfl, ?_, ?_⟩
  · exact Nat.add_right_comm t.start m m'
  · exact Nat.add_right_comm t.stop m m'

namespace Mention

variable {m m' : Nat} {before before' : Option Token} {t t' : Token}
  {after after' tokens tokens' : List Token} {literal : String} {stop : Nat}

theorem Alike.of_moved (h : List.Forall₂ (Token.Moved m m') tokens tokens') :
    Alike (Token.Moved m m') tokens tokens' := by
  induction h with
  | nil => exact .nil
  | cons ht _ ih => exact .cons ht.kind ht ih

-- Tokens in front of a name stay where they are whatever stands behind it.
theorem Alike.of_append {a b : String} (h : t.kind = .name a) (h' : t'.kind = .name b)
    (tokens : List Token) :
    Alike (Token.Moved 0 0) (tokens ++ t :: after) (tokens ++ t' :: after') := by
  induction tokens with
  | nil => exact .name h h'
  | cons u tokens ih => exact .cons rfl ⟨rfl, rfl, rfl⟩ ih

end Mention

-- The calls of a source in which one call stands for another, behind the same calls and in front of
-- calls that lie as far from it as those from the other.
inductive StaticCall.Exchanged (call call' : StaticCall) : List StaticCall → List StaticCall → Prop
  | here {later later' : List StaticCall} (hs : call'.span.start = call.span.start)
      (h : List.Forall₂ (Moved call.span.stop call'.span.stop) later later') :
      Exchanged call call' (call :: later) (call' :: later')
  | earlier {c c' : StaticCall} {calls calls' : List StaticCall} (h : c.Moved 0 0 c')
      (more : Exchanged call call' calls calls') : Exchanged call call' (c :: calls) (c' :: calls')

namespace Requires

variable {source source' : String} {lines lines' : Lines} {before before' : Option Token}
  {t t' last last' : Token} {m m' stop stop' : Nat} {literal literal' : String}
  {after after' tokens tokens' earlier inner inner' later later' : List Token}
  {calls : List StaticCall}

-- The static calls of tokens among which there is no dynamic one.
def calls? (source : String) (lines : Lines) (before : Option Token) (tokens : List Token) :
    Option (List StaticCall) :=
  (ofTokens source lines before tokens).toOption.map Requires.calls

theorem calls?_eq_some {r : Requires} (h : Requires.of source = .ok r) :
    calls? source (.of source) none (lex source) = some r.calls :=
  congrArg (fun result => result.toOption.map Requires.calls) h

theorem exists_of_calls?_eq_some (h : calls? source (.of source) none (lex source) = some calls) :
    ∃ r, Requires.of source = .ok r ∧ r.calls = calls := by
  unfold calls? at h
  cases hr : ofTokens source (.of source) none (lex source) with
  | error e => simp [hr, Except.toOption] at h
  | ok r => exact ⟨r, hr, by simpa [hr, Except.toOption] using h⟩

theorem calls?_cons :
    calls? source lines before (t :: after) =
      match Mention.of before t after with
      | .static literal stop =>
        (calls? source lines (some t) after).map (⟨literal, lines.span t.start stop⟩ :: ·)
      | .dynamic _ => none
      | _ => calls? source lines (some t) after := by
  rw [calls?, ofTokens]
  cases Mention.of before t after with
  | static | value => cases h : ofTokens source lines (some t) after <;> simp [calls?, h] <;> rfl
  | dynamic | other => rfl

-- The tokens of a static call add that call.
theorem calls?_call (hl : Mention.Live before t)
    (hs : Mention.Static (inner ++ last :: later) literal stop)
    (hi : ∀ u ∈ inner ++ [last], Mention.IsArgument u) :
    calls? source lines before (t :: (inner ++ last :: later)) =
      (calls? source lines (some last) later).map (⟨literal, lines.span t.start stop⟩ :: ·) := by
  rw [calls?_cons, Mention.of_static hl hs]
  dsimp only
  rw [calls?, ofTokens_append fun u hu => (hi u hu).ne_name _, ← calls?]

-- What a token adds to the calls behind it, a token that is moved adds as well.
theorem calls?_cons_moved {R : List StaticCall → List StaticCall → Prop} (ht : t.Moved m m' t')
    (hb : Mention.Beside before before') (ha : Mention.Alike (Token.Moved m m') after after')
    (hR : ∀ {c c' : StaticCall} {calls calls' : List StaticCall}, c.Moved m m' c' →
      R calls calls' → R (c :: calls) (c' :: calls'))
    (hrest : ∀ calls, calls? source lines (some t) after = some calls →
      ∃ calls', calls? source' lines' (some t') after' = some calls' ∧ R calls calls')
    (h : calls? source lines before (t :: after) = some calls) :
    ∃ calls', calls? source' lines' before' (t' :: after') = some calls' ∧ R calls calls' := by
  have hu := Mention.unplaced_of ht.kind hb ha
  rw [calls?_cons] at h ⊢
  cases hm : Mention.of before t after with
  | static literal stop =>
    obtain ⟨hl, hs⟩ := Mention.of_eq_static_iff.mp hm
    obtain ⟨last, last', hr, rfl, hs'⟩ := hs.alike ha
    rw [hm] at h
    rw [Mention.of_static (hl.beside ht.kind hb) hs']
    obtain ⟨rest, hcalls, rfl⟩ := Option.map_eq_some_iff.mp h
    obtain ⟨rest', hcalls', hR'⟩ := hrest rest hcalls
    exact ⟨_, Option.map_eq_some_iff.mpr ⟨rest', hcalls', rfl⟩, hR ⟨rfl, ht.start, hr.stop⟩ hR'⟩
  | dynamic stop => simp [hm] at h
  | value =>
    rw [hm] at h hu
    cases hm' : Mention.of before' t' after' <;> simp [hm', Mention.unplaced] at hu
    exact hrest calls h
  | other =>
    rw [hm] at h hu
    cases hm' : Mention.of before' t' after' <;> simp [hm', Mention.unplaced] at hu
    exact hrest calls h

theorem calls?_moved (ht : List.Forall₂ (Token.Moved m m') tokens tokens')
    (hb : Mention.Beside before before') (h : calls? source lines before tokens = some calls) :
    ∃ calls', calls? source' lines' before' tokens' = some calls' ∧
      List.Forall₂ (StaticCall.Moved m m') calls calls' := by
  induction ht generalizing before before' calls with
  | nil =>
    obtain rfl : [] = calls := Option.some.inj h
    exact ⟨[], rfl, .nil⟩
  | cons ht hmore ih =>
    exact calls?_cons_moved ht hb (.of_moved hmore) .cons (fun _ => ih (.of_kind ht.kind)) h

-- By induction on the tokens in front of the call: none of them reaches past its `require`.
theorem calls?_exchanged {rest : List Char} (hl : Mention.Live (earlier.getLast?.or before) t)
    (hl' : Mention.Live (earlier.getLast?.or before) t') (hstart : t'.start = t.start)
    (hs : Mention.Static (inner ++ last :: lexFrom stop rest) literal stop)
    (hs' : Mention.Static (inner' ++ last' :: lexFrom stop' rest) literal' stop')
    (hi : ∀ u ∈ inner ++ [last], Mention.IsArgument u)
    (hi' : ∀ u ∈ inner' ++ [last'], Mention.IsArgument u)
    (h : calls? source lines before (earlier ++ t :: (inner ++ last :: lexFrom stop rest)) =
      some calls) :
    ∃ calls', calls? source' lines' before
        (earlier ++ t' :: (inner' ++ last' :: lexFrom stop' rest)) = some calls' ∧
      StaticCall.Exchanged ⟨literal, lines.span t.start stop⟩
        ⟨literal', lines'.span t'.start stop'⟩ calls calls' := by
  induction earlier generalizing before calls with
  | nil =>
    rw [List.getLast?_nil, Option.none_or] at hl hl'
    rw [List.nil_append] at h ⊢
    rw [calls?_call hl hs hi] at h
    rw [calls?_call hl' hs' hi']
    obtain ⟨more, hmore, rfl⟩ := Option.map_eq_some_iff.mp h
    obtain ⟨more', hmore', hmoved⟩ := calls?_moved (moved_lexFrom stop stop' rest)
      ((hi last (by simp)).beside (hi' last' (by simp))) hmore
    exact ⟨_, Option.map_eq_some_iff.mpr ⟨more', hmore', rfl⟩, .here hstart hmoved⟩
  | cons e earlier ih =>
    have hlast : (e :: earlier).getLast?.or before = earlier.getLast?.or (some e) := by
      cases h : earlier.getLast? <;> simp [List.getLast?_cons, h]
    rw [hlast] at hl hl'
    exact calls?_cons_moved ⟨rfl, rfl, rfl⟩ ⟨rfl, rfl⟩ (.of_append hl.1 hl'.1 earlier) .earlier
      (fun _ => ih hl hl') h

end Requires

end LuaBundle

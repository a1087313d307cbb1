import LuaBundle.Proofs.Source.Mention

namespace LuaBundle

open Lua

namespace Mention

-- What a mention says, whatever its place.
def unplaced : Mention → Mention
  | static literal _ => .static literal 0
  | dynamic _ => .dynamic none
  | value => .value
  | other => .other

-- Two lists of tokens that say the same up to a name in both, with a relation between those that
-- say the same.
inductive Alike (R : Token → Token → Prop) : List Token → List Token → Prop
  | nil : Alike R [] []
  | name {t t' : Token} {tokens tokens' : List Token} {a b : String} (h : t.kind = .name a)
      (h' : t'.kind = .name b) : Alike R (t :: tokens) (t' :: tokens')
  | cons {t t' : Token} {tokens tokens' : List Token} (hk : t'.kind = t.kind) (hr : R t t')
      (more : Alike R tokens tokens') : Alike R (t :: tokens) (t' :: tokens')

-- Two tokens that make no difference to a token behind them.
structure Beside (before before' : Option Token) : Prop where
  foreign : isForeign before' = isForeign before
  declares : before'.any (·.isName "local") = before.any (·.isName "local")

section Alike

variable {before before' : Option Token} {t t' : Token} {after after' tokens tokens' : List Token}
  {literal : String} {stop : Nat} {R : Token → Token → Prop}

theorem Alike.symm (h : Alike R tokens tokens') : Alike (flip R) tokens' tokens := by
  induction h with
  | nil => exact .nil
  | name h h' => exact .name h' h
  | cons hk hr _ ih => exact .cons hk.symm hr ih

theorem Alike.of_cons (h : Alike R (t :: tokens) tokens') (hn : ∀ name, t.kind ≠ .name name) :
    ∃ u more, tokens' = u :: more ∧ u.kind = t.kind ∧ R t u ∧ Alike R tokens more := by
  cases h with
  | name h _ => exact absurd h (hn _)
  | cons hk hr more => exact ⟨_, _, rfl, hk, hr, more⟩

theorem Beside.symm (h : Beside before before') : Beside before' before :=
  ⟨h.foreign.symm, h.declares.symm⟩

theorem Beside.of_kind (h : t'.kind = t.kind) : Beside (some t) (some t') := by
  constructor <;> simp [isForeign, Token.isSymbol, Token.isName, h]

theorem Parts.alike (h : Parts tokens literal stop) (ha : Alike R tokens tokens') :
    ∃ last last', R last last' ∧ last.stop = stop ∧ Parts tokens' literal last'.stop := by
  induction h generalizing tokens' with
  | last hc =>
    obtain ⟨⟨_, _, _⟩, _, rfl, rfl, -, hrest⟩ := ha.of_cons (by simp)
    obtain ⟨close', _, rfl, hk, hr, -⟩ := hrest.of_cons (by simp [hc])
    exact ⟨_, close', hr, rfl, .last (hk.trans hc)⟩
  | joined hd _ ih =>
    obtain ⟨⟨_, _, _⟩, _, rfl, rfl, -, hrest⟩ := ha.of_cons (by simp)
    obtain ⟨dots', _, rfl, hk, -, hmore⟩ := hrest.of_cons (by simp [hd])
    obtain ⟨last, last', hr, hstop, hm⟩ := ih hmore
    exact ⟨last, last', hr, hstop, .joined (hk.trans hd) hm⟩

theorem Static.alike (h : Static after literal stop) (ha : Alike R after after') :
    ∃ last last', R last last' ∧ last.stop = stop ∧ Static after' literal last'.stop := by
  cases h with
  | string =>
    obtain ⟨⟨_, _, _⟩, _, rfl, rfl, hr, -⟩ := ha.of_cons (by simp)
    exact ⟨_, _, hr, rfl, .string⟩
  | parenthesized ho hp =>
    obtain ⟨opening', _, rfl, hk, -, ha⟩ := ha.of_cons (by simp [ho])
    obtain ⟨last, last', hr, hstop, hp⟩ := hp.alike ha
    exact ⟨last, last', hr, hstop, .parenthesized (hk.trans ho) hp⟩

theorem Dynamic.alike (h : Dynamic after) (ha : Alike R after after') : Dynamic after' := by
  cases h with
  | table ho =>
    obtain ⟨opening', _, rfl, hk, -, -⟩ := ha.of_cons (by simp [ho])
    exact .table (hk.trans ho)
  | parenthesized ho hp =>
    obtain ⟨opening', _, rfl, hk, -, ha⟩ := ha.of_cons (by simp [ho])
    refine .parenthesized (hk.trans ho) fun literal stop hp' => ?_
    obtain ⟨_, last', -, -, hp'⟩ := hp'.alike ha.symm
    exact hp literal last'.stop hp'

theorem Value.alike (h : Value before after) (hb : Beside before before')
    (ha : Alike R after after') : Value before' after' := by
  have hlocal : (∀ b ∈ before, b.kind ≠ .name "local") → ∀ b ∈ before', b.kind ≠ .name "local" := by
    have := hb.declares
    cases before <;> cases before' <;> simp_all [Token.isName]
  intro next hn
  cases ha with
  | nil => cases hn
  | name ht ht' =>
    obtain rfl := Option.some.inj hn
    obtain ⟨-, -, -, -, hl⟩ := h _ rfl
    simpa [ht'] using hlocal hl
  | cons hk _ _ =>
    obtain rfl := Option.some.inj hn
    obtain ⟨hs, ho, hbrace, he, hl⟩ := h _ rfl
    rw [hk]
    exact ⟨hs, ho, hbrace, he, hlocal hl⟩

theorem Live.beside (h : Live before t) (hk : t'.kind = t.kind) (hb : Beside before before') :
    Live before' t' := by
  rw [live_iff] at h ⊢
  rw [hb.foreign, Token.isName, hk]
  exact h

-- A mention stays what it is when what stands around it says the same.
theorem unplaced_of (hk : t'.kind = t.kind) (hb : Beside before before')
    (ha : Alike R after after') :
    (of before' t' after').unplaced = (of before t after).unplaced := by
  rcases of_cases before t after with ⟨literal, stop, hl, hs, h⟩ | ⟨stop, hl, hd, h⟩ | ⟨hl, hv, h⟩ | h
  · obtain ⟨_, last', -, -, hs'⟩ := hs.alike ha
    rw [h, of_static (hl.beside hk hb) hs']
    rfl
  · obtain ⟨-, -, stop', -, -, h'⟩ := of_dynamic (hl.beside hk hb) (hd.alike ha)
    rw [h, h']
    rfl
  · rw [h, of_value (hl.beside hk hb) (hv.alike hb ha)]
  · rcases of_cases before' t' after' with
      ⟨literal, stop, hl, hs, -⟩ | ⟨stop, hl, hd, -⟩ | ⟨hl, hv, -⟩ | h'
    · obtain ⟨last, _, -, -, hs⟩ := hs.alike ha.symm
      cases h.symm.trans (of_static (hl.beside hk.symm hb.symm) hs)
    · obtain ⟨-, -, stop', -, -, hd⟩ := of_dynamic (hl.beside hk.symm hb.symm) (hd.alike ha.symm)
      cases h.symm.trans hd
    · cases h.symm.trans (of_value (hl.beside hk.symm hb.symm) (hv.alike hb.symm ha.symm))
    · rw [h, h']

end Alike

-- What a mention adds in front of the literals of the static calls and the number of values that
-- are told of the tokens behind it. A dynamic call leaves nothing to tell.
def tell (m : Mention) (told : Option (List String × Nat)) : Option (List String × Nat) :=
  match m with
  | static literal _ => told.map fun (literals, values) => (literal :: literals, values)
  | dynamic _ => none
  | value => told.map fun (literals, values) => (literals, values + 1)
  | other => told

theorem tell_unplaced (m : Mention) (told : Option (List String × Nat)) :
    m.unplaced.tell told = m.tell told := by
  cases m <;> rfl

end Mention

namespace Requires

variable {source : String} {lines : Lines} {before : Option Token} {t last : Token}
  {after tokens later : List Token}

-- The literals of the static calls and the number of values.
def outline (r : Requires) : List String × Nat :=
  (r.calls.map StaticCall.literal, r.valueUses.length)

def outline? (source : String) (lines : Lines) (before : Option Token) (tokens : List Token) :
    Option (List String × Nat) :=
  (ofTokens source lines before tokens).toOption.map outline

theorem outline?_cons :
    outline? source lines before (t :: after) =
      (Mention.of before t after).tell (outline? source lines (some t) after) := by
  rw [outline?, ofTokens]
  cases Mention.of before t after with
  | static | value => cases h : ofTokens source lines (some t) after <;> simp [outline?, h, Mention.tell] <;> rfl
  | dynamic | other => rfl

-- Tokens among which there is no `require` tell nothing.
theorem ofTokens_append (h : ∀ t ∈ tokens ++ [last], t.kind ≠ .name "require") :
    ofTokens source lines before (tokens ++ last :: later) =
      ofTokens source lines (some last) later := by
  induction tokens generalizing before with
  | nil =>
    have hl : ¬ Mention.Live before last := fun hl => h last (by simp) hl.1
    rw [List.nil_append, ofTokens, Mention.of_not_live hl]
  | cons t tokens ih =>
    have hl : ¬ Mention.Live before t := fun hl => h t (by simp) hl.1
    rw [List.cons_append, ofTokens, Mention.of_not_live hl]
    exact ih fun u hu => h u (.tail t hu)

theorem outline?_append (h : ∀ t ∈ tokens ++ [last], t.kind ≠ .name "require") :
    outline? source lines before (tokens ++ last :: later) =
      outline? source lines (some last) later := by
  rw [outline?, outline?, ofTokens_append h]

end Requires
end LuaBundle

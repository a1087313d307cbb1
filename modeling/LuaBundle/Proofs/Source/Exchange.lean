import LuaBundle.Proofs.Source.CallText
import LuaBundle.Proofs.Source.Moved
import LuaBundle.Proofs.Source.Splice

namespace LuaBundle

open Lua Text

-- A source with another text in the place of a span.
def Span.exchange (span : Span) (source : String) (text : List Char) : String :=
  String.ofList (Embed.splice 0 source.toList [(span, text)])

-- Two sources that differ in nothing but what stands at one span, which begins a call.
structure Swapped (source source' : String) (before old new rest : List Char) (span span' : Span) :
    Prop where
  eq : source.toList = before ++ (old ++ rest)
  eq' : source'.toList = before ++ (new ++ rest)
  span : span.start = size before ∧ span.stop = size before + size old
  span' : span'.start = size before ∧ span'.stop = size before + size new
  head : old.head? = some 'r'
  head' : new.head? = some 'r'

theorem Span.exchange_eq {span : Span} {source : String} {before old text rest : List Char}
    (hs : source.toList = before ++ (old ++ rest)) (hstart : span.start = size before)
    (hstop : span.stop = size before + size old) :
    span.exchange source text = String.ofList (before ++ (text ++ rest)) := by
  rw [exchange, hs, Embed.splice_cons (by rw [hstart, Nat.zero_add]) (by rw [hstart, hstop])]
  rfl

namespace Requires

variable {source : String} {r : Requires} {call : StaticCall} {literal : String} {text : List Char}

-- A static call with another text is the static call that this text says, and nothing else changes
-- but where the calls behind it stand.
theorem exists_exchange (h : Requires.of source = .ok r) (hc : call ∈ r.calls)
    (ht : CallText literal text) :
    ∃ r' call', Requires.of (call.span.exchange source text) = .ok r' ∧ call'.literal = literal ∧
      call.Exchanged call' r.calls r'.calls ∧ ∃ before old rest,
        Swapped source (call.span.exchange source text) before old text rest call.span call'.span := by
  have hcalls := calls?_eq_some h
  obtain ⟨o, before, s, ⟨hl, hstatic, hspan⟩, stands, -, hstands, -⟩ := exists_require h hc
  have hstart : o.token.start = size before := congrArg Token.start hstands
  -- the tokens from the call on, as it is and as it will be
  obtain ⟨inner, last, rest, hafter, ⟨old, hold, hsize⟩, hlt, -, -, hi, -⟩ :=
    exists_call (stands.lexFrom_eq o.eq) hstatic
  obtain ⟨t', inner', last', heq, hkind, hstart', hstatic', hi'⟩ :=
    ht.lexFrom_append (size before) rest
  have hsource : source.toList = before ++ (old ++ rest) := by rw [stands.eq, hold]
  have hspanned : call.span.start = size before ∧ call.span.stop = size before + size old := by
    rw [hspan.1, hstart]
    exact ⟨rfl, by omega⟩
  have hchanged : call.span.exchange source text = String.ofList (before ++ (text ++ rest)) :=
    Span.exchange_eq hsource hspanned.1 hspanned.2
  have hhead : (text ++ rest).head? = some 'r' := by rw [List.head?_append, ht.head?_eq]; rfl
  have hnew := stands.exchange_of_isNameStart (by decide) hhead
  rw [← hchanged, heq] at hnew
  rw [o.eq, hafter] at hcalls
  rw [hafter] at hstatic
  have hlive : Mention.Live (o.earlier.getLast?.or none) o.token := by
    rw [Option.or_none]
    exact hl
  obtain ⟨calls', hcalls', hexchanged⟩ := calls?_exchanged hlive
    (hlive.beside (hkind.trans hl.1.symm) ⟨rfl, rfl⟩) (hstart'.trans hstart.symm) hstatic hstatic' hi
    hi' hcalls
  rw [← hnew] at hcalls'
  obtain ⟨r', hr', rfl⟩ := exists_of_calls?_eq_some hcalls'
  rw [← hspan.eq] at hexchanged
  refine ⟨r', _, hr', rfl, hexchanged, before, old, rest, hsource, by rw [hchanged]; simp, hspanned,
    ⟨hstart', rfl⟩, ?_, ht.head?_eq⟩
  cases old with
  | nil =>
    rw [size_nil] at hsize
    omega
  | cons d old => rw [← (List.cons.inj hold).1, List.head?_cons]

end Requires

namespace StaticCall

variable {m m' n : Nat} {call call' c : StaticCall} {calls calls' : List StaticCall}
  {s p old new rest out : List Char} {texts : List (List Char)}

theorem Exchanged.mem (h : call.Exchanged call' calls calls') : call ∈ calls := by
  induction h with
  | here => exact List.mem_cons_self
  | earlier _ _ ih => exact .tail _ ih

theorem splice_moved (h : List.Forall₂ (Moved m m') calls calls') :
    Embed.splice m s ((calls.map span).zip texts) = Embed.splice m' s ((calls'.map span).zip texts) := by
  induction calls generalizing m m' s calls' texts with
  | nil =>
    cases h
    rfl
  | cons c calls ih =>
    cases h with
    | @cons _ c' _ calls' hc hmore =>
      cases texts with
      | nil => rfl
      | cons text texts =>
        obtain ⟨hstart, hstop⟩ := hc.span
        have hmore : List.Forall₂ (Moved c.span.stop c'.span.stop) calls calls' :=
          hmore.imp fun a a' ha => ⟨ha.literal, by have := ha.span.start; omega,
            by have := ha.span.stop; omega⟩
        have hkept : c.span.start - m = c'.span.start - m' := by omega
        have htext : c.span.stop - c.span.start = c'.span.stop - c'.span.start := by omega
        simp only [List.map_cons, List.zip_cons_cons, Embed.splice, hkept, htext]
        rw [ih hmore]

-- By induction on the calls: the calls in front of the one that is exchanged replace the same
-- pieces, and those behind it stand in the same text.
theorem Exchanged.splice_eq (h : call.Exchanged call' calls calls')
    (hs : Embed.Splices n (p ++ (old ++ rest)) ((calls.map span).zip texts) out)
    (hp : calls.Pairwise fun a b => a.span.stop ≤ b.span.start)
    (hlength : calls.length ≤ texts.length) (hstart : call.span.start = n + size p)
    (hstop : call.span.stop = call.span.start + size old)
    (hstop' : call'.span.stop = call'.span.start + size new) :
    Embed.splice n (p ++ (new ++ rest)) ((calls'.map span).zip texts) = out := by
  induction h generalizing n p texts out with
  | @here later later' hsame hmoved =>
    cases texts with
    | nil => simp at hlength
    | cons text texts =>
      have hold := hs.splice_eq
      rw [List.map_cons, List.zip_cons_cons, Embed.splice_cons hstart hstop] at hold
      rw [List.map_cons, List.zip_cons_cons, Embed.splice_cons (hsame.trans hstart) hstop',
        ← splice_moved hmoved, hold]
  | @earlier c c' calls calls' hmoved more ih =>
    cases texts with
    | nil => simp at hlength
    | cons text texts =>
      obtain ⟨hfirst, hp⟩ := List.pairwise_cons.mp hp
      obtain ⟨kept, text', rest', out', hsplit, rfl, hstart', hstop₁, hmore⟩ := hs.of_cons
      have hle : size (kept ++ text') ≤ size p := by
        have := hfirst call more.mem
        rw [size_append]
        omega
      rw [← List.append_assoc kept] at hsplit
      obtain ⟨between, rfl, rfl⟩ := exists_append_of_size_le hsplit.symm hle
      simp only [size_append] at hstart
      have hsame : c.span.start = c'.span.start := hmoved.span.start
      have hsame' : c.span.stop = c'.span.stop := hmoved.span.stop
      rw [List.map_cons, List.zip_cons_cons, List.append_assoc, List.append_assoc,
        Embed.splice_cons (by omega) (by omega), ← hsame',
        ih hmore hp (by simpa using hlength) (by omega)]

end StaticCall

section Embed

variable {source source' : String} {before old new rest : List Char} {r : Requires}
  {call call' : StaticCall} {calls calls' : List StaticCall} {ids : List String}

-- Calls of two such sources that are replaced by the same ids leave the same body.
theorem Swapped.embed_eq (h : Swapped source source' before old new rest call.span call'.span)
    (hr : Requires.of source = .ok r) (hk : calls.Sublist r.calls)
    (hx : call.Exchanged call' calls calls') (hlength : calls.length ≤ ids.length) :
    embed source ((calls.map StaticCall.span).zip ids) =
      embed source' ((calls'.map StaticCall.span).zip ids) := by
  have hreplacements (spans : List Span) : Embed.replacements (spans.zip ids) =
      spans.zip (ids.map fun id => (requireCall id).toList) := by
    rw [List.zip_map_right]
    rfl
  have hpairwise := (Requires.pairwise_calls hr).sublist hk
  have hlength' : calls.length ≤ (ids.map fun id => (requireCall id).toList).length := by
    rwa [List.length_map]
  have hspans : ((calls.map StaticCall.span).zip ids).map Prod.fst = calls.map StaticCall.span :=
    List.map_fst_zip (by rwa [List.length_map])
  obtain ⟨out, hout⟩ := exists_splices_of_kept hr (hspans ▸ hk.map StaticCall.span)
  have hhead : (old ++ rest).head? = some 'r' := by rw [List.head?_append, h.head]; rfl
  have hhead' : (new ++ rest).head? = some 'r' := by rw [List.head?_append, h.head']; rfl
  have hsize := congrArg size (Embed.mark_append_unmarked before)
  rw [size_append] at hsize
  rw [h.eq, Embed.mark_append hhead, Embed.unmarked_append hhead, hreplacements] at hout
  have hout' := hx.splice_eq hout hpairwise hlength' (h.span.1.trans hsize.symm)
    (by rw [h.span.1, h.span.2]) (by rw [h.span'.1, h.span'.2])
  refine String.toList_injective ?_
  rw [Embed.toList_embed, Embed.toList_embed, h.eq, h.eq', Embed.mark_append hhead,
    Embed.mark_append hhead', Embed.unmarked_append hhead, Embed.unmarked_append hhead',
    hreplacements, hreplacements, hout', hout.splice_eq, List.head?_append, hhead,
    List.head?_append, hhead']

end Embed

end LuaBundle

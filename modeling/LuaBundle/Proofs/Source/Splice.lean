import LuaBundle.Proofs.Source.Embed
import LuaBundle.Proofs.Source.Program

namespace LuaBundle

open Lua Text

namespace Embed

-- A text that starts at a byte offset, and the same text with each span replaced by what stands
-- beside it and every other character kept.
inductive Splices : Nat → List Char → List (Span × List Char) → List Char → Prop
  | done {n : Nat} {s : List Char} : Splices n s [] s
  | call {n : Nat} {kept text rest replacement out : List Char} {span : Span}
      {calls : List (Span × List Char)} (hstart : span.start = n + size kept)
      (hstop : span.stop = span.start + size text) (more : Splices span.stop rest calls out) :
      Splices n (kept ++ (text ++ rest)) ((span, replacement) :: calls)
        (kept ++ (replacement ++ out))

-- The replacement made of slices, each of which must lie between offsets that are in order and
-- inside no character.
def splice? (s : List Char) (start : Nat) : List (Span × List Char) → Option (List Char)
  | [] => slice? start (size s) s
  | (span, replacement) :: more => do
    let kept ← slice? start span.start s
    let rest ← splice? s span.stop more
    return kept ++ (replacement ++ rest)

section Splices

variable {n : Nat} {s t out : List Char} {source : String} {calls : List (Span × List Char)}

theorem Splices.splice_eq (h : Splices n t calls out) : splice n t calls = out := by
  induction h with
  | done => rfl
  | call hstart hstop _ ih => rw [splice_cons hstart hstop, ih]

theorem Splices.of_cons {replacement : List Char} {span : Span}
    (h : Splices n s ((span, replacement) :: calls) out) :
    ∃ kept text rest out', s = kept ++ (text ++ rest) ∧ out = kept ++ (replacement ++ out') ∧
      span.start = n + size kept ∧ span.stop = span.start + size text ∧
      Splices span.stop rest calls out' := by
  cases h with
  | call hstart hstop more => exact ⟨_, _, _, _, rfl, rfl, hstart, hstop, more⟩

-- No slice is out of range.
theorem Splices.splice?_eq (h : Splices n t calls out) (hs : From s n t) :
    splice? s n calls = some out := by
  induction h with
  | @done n t => exact slice?_eq_some_iff.mpr ⟨[], by simpa using hs, hs.offset_add_size⟩
  | @call n kept text rest _ _ span _ hstart hstop _ ih =>
    have hkept : slice? n span.start s = some kept :=
      slice?_eq_some_iff.mpr ⟨text ++ rest, hs, hstart.symm⟩
    have hrest : From s span.stop rest := by
      obtain ⟨before, rfl, rfl⟩ := hs
      refine ⟨before ++ (kept ++ text), by simp, ?_⟩
      simp only [size_append]
      omega
    simp [splice?, hkept, ih hrest]

-- Spans of pieces of a text can be replaced if none starts before the one in front of it stops.
theorem exists_splices (ht : From source.toList n t) (hn : ∀ call ∈ calls, n ≤ call.1.start)
    (hc : ∀ call ∈ calls, ∃ text, call.1.Covers source text)
    (hp : calls.Pairwise fun a b => a.1.stop ≤ b.1.start) : ∃ out, Splices n t calls out := by
  induction calls generalizing n t with
  | nil => exact ⟨t, .done⟩
  | cons call calls ih =>
    obtain ⟨span, replacement⟩ := call
    obtain ⟨text, before, rest, hs, hspan⟩ := hc _ List.mem_cons_self
    have hstart : span.start = size before := congrArg Span.start hspan
    have hstop : span.stop = size before + size text := congrArg Span.stop hspan
    have hpiece : From source.toList span.start (text ++ rest) := ⟨before, hs, hstart.symm⟩
    obtain ⟨kept, rfl, hsize⟩ := ht.exists_of_le hpiece (hn _ List.mem_cons_self)
    have hrest : From source.toList span.stop rest :=
      ⟨before ++ text, by simp [hs], by simp [hstop]⟩
    obtain ⟨hfirst, hp⟩ := List.pairwise_cons.mp hp
    obtain ⟨out, hout⟩ := ih hrest hfirst (fun a ha => hc a (.tail _ ha)) hp
    exact ⟨_, .call hsize.symm (by rw [hstop, hstart]) hout⟩

end Splices

theorem mark_append_unmarked (s : List Char) : mark s ++ unmarked s = s :=
  append_drop_of_isPrefix ((List.take_prefix 1 _).trans (List.takeWhile_prefix _))

theorem mark_append {s t : List Char} (h : t.head? = some 'r') : mark (s ++ t) = mark s := by
  have hr : 'r' ≠ byteOrderMark := by decide
  obtain ⟨u, rfl⟩ := List.head?_eq_some_iff.mp h
  cases s with
  | nil => simp [mark, hr]
  | cons c s => by_cases hc : c = byteOrderMark <;> simp [mark, hc]

theorem unmarked_append {s t : List Char} (h : t.head? = some 'r') :
    unmarked (s ++ t) = unmarked s ++ t := by
  have hst := mark_append_unmarked (s ++ t)
  have hs : mark s ++ (unmarked s ++ t) = s ++ t := by
    rw [← List.append_assoc, mark_append_unmarked]
  rw [mark_append h] at hst
  exact List.append_cancel_left (hst.trans hs.symm)

end Embed

-- A span that stands for a call: it begins with the whole word `require`, behind all that may stand
-- in front of a program.
def Span.IsCall (span : Span) (source : String) : Prop :=
  ∃ before argument rest, source.toList = before ++ (("require".toList ++ argument) ++ rest) ∧
    span = .after before ("require".toList ++ argument) ∧ (preamble source.toList).1 <+: before ∧
    (before = [Embed.byteOrderMark] ∨ before.getLast?.all fun c => !isNameCharacter c) ∧
    argument.head?.any fun c => !isNameCharacter c

namespace Span

variable {span : Span} {source : String}

theorem IsCall.covers (h : span.IsCall source) : ∃ text, span.Covers source text :=
  have ⟨before, _, rest, hs, hspan, _⟩ := h
  ⟨_, before, rest, hs, hspan⟩

theorem IsCall.size_preamble_le (h : span.IsCall source) :
    size (preamble source.toList).1 ≤ span.start := by
  obtain ⟨before, _, _, -, rfl, ⟨_, hb⟩, -⟩ := h
  simp [Span.after, ← hb]

-- The bounds of a call lie in the source, in order and inside no character.
theorem IsCall.bounds (h : span.IsCall source) :
    span.start < span.stop ∧ span.stop ≤ size source.toList ∧
      isBoundary span.start source.toList ∧ isBoundary span.stop source.toList := by
  obtain ⟨before, argument, rest, hs, rfl, -⟩ := h
  have hstart : From source.toList (size before) (("require".toList ++ argument) ++ rest) :=
    ⟨before, hs, rfl⟩
  have hstop : From source.toList (size before + size ("require".toList ++ argument)) rest :=
    ⟨before ++ ("require".toList ++ argument), by simp only [hs, List.append_assoc], size_append _ _⟩
  have hpos : 0 < size ("require".toList ++ argument) := size_pos_of_ne_nil (List.cons_ne_nil _ _)
  refine ⟨?_, ?_, isBoundary_iff.mpr ⟨_, hstart⟩, isBoundary_iff.mpr ⟨_, hstop⟩⟩
  · exact Nat.lt_add_of_pos_right hpos
  · exact hstop.offset_add_size ▸ Nat.le_add_right _ _

end Span

namespace Requires

variable {source : String} {r : Requires} {lines : Lines} {call : StaticCall}

-- Where the `require` of a static call stands.
theorem exists_require (h : Requires.of source = .ok r) (hc : call ∈ r.calls) :
    ∃ (o : Occurrence (lex source)) (before rest : List Char), o.IsStatic call ∧
      StandsIn source o.earlier before 'r' rest ∧ (token 'r' rest).text = "require".toList ∧
      o.token = ⟨(token 'r' rest).value, size before, size before + size (token 'r' rest).text⟩ ∧
      o.after = lexFrom o.token.stop (token 'r' rest).rest := by
  rw [calls_eq_staticCalls h] at hc
  obtain ⟨o, hstatic⟩ := mem_filterMap_call?_iff.mp hc
  obtain ⟨before, c, rest, stands, ht, hafter⟩ := exists_standsIn o.eq
  have hname : (token c rest).value = .name "require" := by simpa [ht] using hstatic.1.1
  have htext := text_of_value_eq_name hname
  have hsplit := token_splits c rest
  rw [Reading.Splits, htext] at hsplit
  obtain rfl : 'r' = c := (List.cons.inj hsplit).1
  exact ⟨o, before, rest, hstatic, stands, htext, ht, hafter⟩

theorem isCall (h : Requires.of source = .ok r) (hc : call ∈ r.calls) : call.span.IsCall source := by
  obtain ⟨o, before, rest, ⟨-, hstatic, hspan⟩, stands, htext, ht, hafter⟩ := exists_require h hc
  have hsplit := token_splits 'r' rest
  rw [Reading.Splits, htext] at hsplit
  obtain ⟨inner, last, later, hlast, hstop, -⟩ := hstatic.exists_append
  obtain ⟨gap, text, rest', hrest, hne, hstart', hstop', -⟩ :=
    lexFrom_eq_append (hafter.symm.trans hlast)
  have hs : source.toList = before ++ (("require".toList ++ (gap ++ text)) ++ rest') := by
    rw [stands.eq, ← hsplit, hrest]
    simp only [List.append_assoc]
  refine ⟨before, gap ++ text, rest', hs, ?_, stands.skips, stands.apart (by decide), ?_⟩
  · rw [hspan.eq, ← hstop, ← Lines.span_eq hs]
    congr 1
    · rw [ht]
    · simp only [hstop', hstart', ht, htext, size_append]
      omega
  · have hend := head?_dropWhile_any isNameCharacter rest
    have hr : rest.dropWhile isNameCharacter = gap ++ (text ++ rest') := by
      rw [← hrest, token_name (by decide)]
    rw [hr, ← List.append_assoc] at hend
    obtain ⟨d, u, hu⟩ := List.exists_cons_of_ne_nil (List.append_ne_nil_of_right_ne_nil gap hne)
    rw [hu] at hend ⊢
    simpa using hend

-- The calls of tokens that follow one another do so too: a call takes its arguments along.
theorem pairwise_staticCalls {before : Option Token} {tokens : List Token} (h : InOrder tokens) :
    (staticCalls lines before tokens).Pairwise fun a b => a.span.stop ≤ b.span.start := by
  match tokens with
  | [] => exact .nil
  | t :: after =>
    rcases staticCalls_cons_cases lines before t after with hcalls | ⟨literal, stop, hm, hcalls⟩
    case inl => exact hcalls ▸ pairwise_staticCalls h.tail
    case inr =>
      obtain ⟨inner, last, later, rfl, rfl, hi⟩ := (Mention.of_eq_static_iff.mp hm).2.exists_append
      rw [hcalls, staticCalls_append hi]
      have hlater := h.tail.of_append
      refine .cons (fun call hc => ?_) (pairwise_staticCalls hlater.tail)
      obtain ⟨u, hu, hstart⟩ := exists_token_of_mem_staticCalls hc
      rw [hstart]
      exact (List.pairwise_cons.mp hlater.pairwise).1 u hu
termination_by tokens.length

theorem pairwise_calls (h : Requires.of source = .ok r) :
    r.calls.Pairwise fun a b => a.span.stop ≤ b.span.start := by
  rw [calls_eq_staticCalls h]
  exact pairwise_staticCalls (inOrder_lex source)

end Requires

section Embed

open Embed

variable {source : String} {r : Requires} {kept : List (Span × String)}

theorem exists_splices_of_kept (h : Requires.of source = .ok r)
    (hk : (kept.map Prod.fst).Sublist (r.calls.map StaticCall.span)) :
    ∃ out, Splices (size (mark source.toList)) (unmarked source.toList) (replacements kept) out := by
  have hspans : (replacements kept).map Prod.fst = kept.map Prod.fst := by
    rw [replacements, List.map_map]
    rfl
  have hcall : ∀ call ∈ replacements kept, call.1.IsCall source := by
    intro call hc
    have hmem := hk.subset (hspans ▸ List.mem_map_of_mem hc)
    obtain ⟨static, hs, he⟩ := List.mem_map.mp hmem
    exact he ▸ Requires.isCall h hs
  have hpairwise : (r.calls.map StaticCall.span).Pairwise fun a b => a.stop ≤ b.start :=
    List.pairwise_map.mpr (Requires.pairwise_calls h)
  replace hpairwise := hpairwise.sublist hk
  rw [← hspans, List.pairwise_map] at hpairwise
  refine exists_splices ⟨_, (mark_append_unmarked _).symm, rfl⟩ (fun call hc => ?_)
    (fun call hc => (hcall call hc).covers) hpairwise
  have hle := (hcall call hc).size_preamble_le
  rw [preamble_eq, size_append] at hle
  omega

-- The calls of a source stand apart in order, each in the program and on whole characters. Whichever
-- of them are replaced, and by whatever ids, no slice of the source is out of range and nothing but
-- these calls changes.
theorem embed_replaces_calls (h : Requires.of source = .ok r) :
    (∀ call ∈ r.calls, call.span.IsCall source ∧
      call.span.start < call.span.stop ∧ call.span.stop ≤ size source.toList ∧
      isBoundary call.span.start source.toList ∧ isBoundary call.span.stop source.toList) ∧
    r.calls.Pairwise (fun a b => a.span.stop ≤ b.span.start) ∧
    ∀ kept : List (Span × String), (kept.map Prod.fst).Sublist (r.calls.map StaticCall.span) →
      ∃ out, splice? source.toList (size (mark source.toList)) (replacements kept) = some out ∧
        Splices (size (mark source.toList)) (unmarked source.toList) (replacements kept) out ∧
        (embed source kept).toList =
          (if (unmarked source.toList).head? = some '#' then ['-', '-'] else []) ++ out := by
  refine ⟨fun call hc => ⟨Requires.isCall h hc, (Requires.isCall h hc).bounds⟩,
    Requires.pairwise_calls h, fun kept hk => ?_⟩
  obtain ⟨out, hout⟩ := exists_splices_of_kept h hk
  refine ⟨out, hout.splice?_eq ⟨_, (mark_append_unmarked _).symm, rfl⟩, hout, ?_⟩
  rw [toList_embed, hout.splice_eq]

-- A source with a byte order mark, a first line that starts with `#`, and calls that touch their
-- neighbours and hold characters of more than one byte.
def crowded : String :=
  "\uFEFF#é\n(require\"é\"..require--[[é]]('b'..\"c\"))"

theorem embed_replaces_calls_crowded :
    ∃ r, Requires.of crowded = .ok r ∧
      r.calls.map StaticCall.span = [⟨8, 19, 2, 2⟩, ⟨21, 46, 2, 15⟩] ∧
      (∀ call ∈ r.calls, call.span.IsCall crowded) ∧
      ∃ out, splice? crowded.toList 3 (replacements [(⟨21, 46, 2, 15⟩, "é")]) = some out ∧
        Splices 3 (unmarked crowded.toList) (replacements [(⟨21, 46, 2, 15⟩, "é")]) out ∧
        '-' :: '-' :: out = "--#é\n(require\"é\"..__require(\"é\"))".toList := by
  have h : Requires.of crowded =
      .ok ⟨[⟨"é", ⟨8, 19, 2, 2⟩⟩, ⟨"bc", ⟨21, 46, 2, 15⟩⟩], []⟩ := by decide +kernel
  have hembed : (embed crowded [(⟨21, 46, 2, 15⟩, "é")]).toList =
      "--#é\n(require\"é\"..__require(\"é\"))".toList := by decide +kernel
  obtain ⟨hcalls, -, hkept⟩ := embed_replaces_calls h
  obtain ⟨out, hsplice, hout, hs⟩ := hkept [(⟨21, 46, 2, 15⟩, "é")] (by decide)
  have hmark : size (mark crowded.toList) = 3 := by decide
  have hhash : (unmarked crowded.toList).head? = some '#' := by decide
  rw [if_pos hhash, hembed] at hs
  rw [hmark] at hsplice hout
  exact ⟨_, h, rfl, fun call hc => (hcalls call hc).1, out, hsplice, hout, hs.symm⟩

end Embed

end LuaBundle

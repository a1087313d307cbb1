import LuaBundle.Proofs.Lua.LineEnds
import LuaBundle.Proofs.Source.Program
import LuaBundle.Proofs.Source.Replaced
import LuaBundle.Proofs.Source.Similar

namespace LuaBundle

open Embed Lua Text

namespace Lua

theorem partedAlike_hashLine (s : List Char) :
    PartedAlike (preamble.hashLine s) (preamble.hashLine (crlf s)) := by
  simp only [preamble.hashLine, head?_crlf (c := '#') (by decide) (by decide)]
  split
  case isTrue => exact partedAlike_line s
  case isFalse => exact partedAlike_of_eq rfl

theorem partedAlike_preamble (s : List Char) : PartedAlike (preamble s) (preamble (crlf s)) := by
  have hmark : byteOrderMark ≠ '\n' := by decide
  by_cases hs : s.head? = some byteOrderMark
  case pos =>
    obtain ⟨r, rfl⟩ := List.head?_eq_some_iff.mp hs
    obtain ⟨blank, hblank, hfront, hrest⟩ := partedAlike_hashLine r
    have he (r : List Char) : preamble (byteOrderMark :: r) =
        (byteOrderMark :: (preamble.hashLine r).1, (preamble.hashLine r).2) := rfl
    rw [crlf_cons hmark, he, he]
    exact ⟨blank, hblank, by simp [hfront, crlf_cons hmark], hrest⟩
  case neg =>
    have hs' : (crlf s).head? ≠ some byteOrderMark := by
      rwa [Ne, head?_crlf hmark (by decide)]
    rw [preamble_eq_hashLine hs, preamble_eq_hashLine hs']
    exact partedAlike_hashLine s

theorem converted_lex {source : String} (h : '\r' ∉ source.toList) :
    List.Forall₂ (Token.Converted source.toList) (lex source) (lex (withCrlf source)) := by
  have hprogram : '\r' ∉ (preamble source.toList).2 := fun hm =>
    h (preamble_append source.toList ▸ List.mem_append_right _ hm)
  have hconverted := converted_lexFrom hprogram (preamble source.toList).1
  rw [preamble_append] at hconverted
  rw [lex_eq_lexFrom, lex_eq_lexFrom, withCrlf, String.toList_ofList,
    (partedAlike_preamble source.toList).lexFrom_eq]
  exact hconverted

theorem Token.Converted.similar {s : List Char} {t t' : Token} (h : t.Converted s t') :
    t.kind.Similar t'.kind := by
  have hcrlf (kind : Kind) : kind.Similar kind.crlf ∧ kind.Similar kind := by
    cases kind <;> exact ⟨by constructor, by constructor⟩
  rw [h.kind]
  split
  case isTrue => exact (hcrlf _).1
  case isFalse => exact (hcrlf _).2

end Lua

-- The tokens that a span of a source holds.
def tokensIn (source : String) (span : Span) : List Token :=
  (lex source).filter (span.holds ·)

-- What the string at a token says once the lines of the source end with a carriage return and a
-- line feed: the same, unless it is a long bracket.
def convertedValue (source : String) (t : Token) : String :=
  if (slice t.start t.stop source.toList).head? = some '[' then withCrlf t.kind.value
  else t.kind.value

structure Span.SamePlace (a a' : Span) : Prop where
  line : a'.line = a.line
  column : a'.column = a.column

-- A call and the call in its place: both say what their strings say.
structure StaticCall.Converted (source : String) (c c' : StaticCall) : Prop where
  place : c.span.SamePlace c'.span
  literal : c.literal = String.join ((tokensIn source c.span).map (·.kind.value))
  converted : c'.literal = String.join ((tokensIn source c.span).map (convertedValue source))

structure DynamicCall.Converted (e e' : DynamicCall) : Prop where
  place : e.span.SamePlace e'.span
  call : e'.call = withCrlf e.call

section Place

variable {source : String} {n n' : Nat}

theorem position_crlf (h : Placed source.toList n n') :
    (Lines.of (withCrlf source)).position n' = (Lines.of source).position n := by
  obtain ⟨before, rest, hs, rfl, rfl⟩ := h
  have hs' : (withCrlf source).toList = crlf before ++ crlf rest := by
    rw [withCrlf, String.toList_ofList, hs, crlf_append]
  rw [Lines.position_size hs, Lines.position_size hs', count_crlf, takeWhile_reverse_crlf]

theorem samePlace_span (h : Placed source.toList n n') (stop stop' : Nat) :
    ((Lines.of source).span n stop).SamePlace ((Lines.of (withCrlf source)).span n' stop') := by
  constructor
  · simp only [Lines.span, position_crlf h]
  · simp only [Lines.span, position_crlf h]

end Place

theorem isBlank_of_isSpace {c : Char} (h : isSpace c) : isBlank c := by
  have h : ((((c = ' ' ∨ c = '\t') ∨ c = '\n') ∨ c = '\x0b') ∨ c = '\x0c') ∨ c = '\r' := by
    simpa [isSpace] using h
  rcases h with ((((rfl | rfl) | rfl) | rfl) | rfl) | rfl <;> decide

section Carried

variable {source : String} {earlier inner later after : List Token} {t last t' : Token}
  {stop stop' : Option Nat}

theorem convertedValue_eq (h : t.Converted source.toList t') :
    t'.kind.value = convertedValue source t := by
  have hcrlf (kind : Kind) : kind.crlf.value = withCrlf kind.value := by
    cases kind <;> rfl
  rw [h.kind, convertedValue]
  split
  case isTrue => exact hcrlf t.kind
  case isFalse => rfl

-- The span of a call holds the tokens of that call.
theorem tokensIn_span (h : lex source = earlier ++ t :: (inner ++ last :: later)) :
    tokensIn source ((Lines.of source).span t.start last.stop) = t :: inner ++ [last] := by
  have ho := inOrder_lex source
  rw [h] at ho
  have hcall : InOrder (t :: inner ++ last :: later) := ho.of_append
  obtain ⟨hheld, hlater⟩ := Requires.holds_span (Lines.of source) hcall
  have hearlier : ∀ u ∈ earlier, ¬ ((Lines.of source).span t.start last.stop).holds u := by
    intro u hu
    have hstop := (List.pairwise_append.mp ho.pairwise).2.2 u hu t List.mem_cons_self
    have hbounds := ho.bounds u (List.mem_append_left _ hu)
    rw [Span.holds_iff]
    show ¬ (t.start ≤ u.start ∧ u.stop ≤ last.stop)
    omega
  have hsplit : t :: (inner ++ last :: later) = (t :: inner ++ [last]) ++ later := by simp
  rw [tokensIn, h, hsplit, List.filter_append, List.filter_append,
    List.filter_eq_nil_iff.mpr hearlier, List.filter_eq_self.mpr hheld,
    List.filter_eq_nil_iff.mpr hlater, List.nil_append, List.append_nil]

theorem call_converted {after' : List Token} {literal literal' : String} {stop stop' : Nat}
    (h : lex source = earlier ++ t :: after) (hname : t.kind = .name "require")
    (ht : t.Converted source.toList t')
    (hargument : Mention.Argument (Token.Converted source.toList) after after' (literal, stop)
      (literal', stop')) :
    StaticCall.Converted source ⟨literal, (Lines.of source).span t.start stop⟩
      ⟨literal', (Lines.of (withCrlf source)).span t'.start stop'⟩ := by
  have hvalues : ∀ u u', u.Converted source.toList u' → u'.kind.value = convertedValue source u :=
    fun _ _ => convertedValue_eq
  obtain ⟨inner, last, later, rfl, hstop, hliteral, hliteral'⟩ := hargument.exists_append hvalues
  obtain rfl : stop = last.stop := hstop
  have htokens := tokensIn_span h
  have hvalue : t.kind.value = "" := by rw [hname]; rfl
  have hvalue' : convertedValue source t = "" := by
    have hempty : withCrlf "" = "" := rfl
    rw [convertedValue, hvalue, hempty, ite_self]
  refine ⟨samePlace_span ht.start _ _, ?_, ?_⟩
  case refine_1 =>
    rw [htokens, List.cons_append, List.map_cons, String.join_cons, hvalue, String.empty_append]
    exact hliteral
  case refine_2 =>
    rw [htokens, List.cons_append, List.map_cons, String.join_cons, hvalue', String.empty_append]
    exact hliteral'

theorem dynamicCall_converted (h : lex source = earlier ++ t :: after)
    (ht : t.Converted source.toList t')
    (hstop : Option.Rel (Mention.Stops (Token.Converted source.toList) after) stop stop') :
    (Requires.dynamicCall source (.of source) t.start stop).Converted
      (Requires.dynamicCall (withCrlf source) (.of (withCrlf source)) t'.start stop') := by
  refine ⟨samePlace_span ht.start _ _, ?_⟩
  have hsource : (withCrlf source).toList = crlf source.toList := String.toList_ofList
  cases hstop with
  | some hstop =>
    obtain ⟨u, hu, u', hconverted, rfl, rfl⟩ := hstop
    have ho := inOrder_lex source
    rw [h] at ho
    have hle : t.start ≤ u.stop := by
      have hlater : InOrder (t :: after) := ho.of_append
      have := (List.pairwise_cons.mp hlater.pairwise).1 u hu
      have := ho.bounds t (by simp)
      have := ho.bounds u (by simp [hu])
      omega
    simp only [Requires.dynamicCall, Option.getD_some,
      ht.start.slice_crlf hconverted.stop hle, trimEnd_crlf, withCrlf, String.toList_ofList]
  | none =>
    obtain ⟨before, rest, hs, hstart, hstart'⟩ := ht.start
    have hfrom : From source.toList t.start rest := ⟨before, hs, hstart⟩
    have hfrom' : From (withCrlf source).toList t'.start (crlf rest) :=
      ⟨crlf before, by rw [hsource, hs, crlf_append], hstart'⟩
    obtain ⟨blank, hblank, hline, -⟩ := partedAlike_line rest
    dsimp only at hline
    have hblank : ∀ c ∈ blank, isBlank c := fun c hc => isBlank_of_isSpace (hblank c hc)
    simp only [Requires.dynamicCall, Option.getD_none, Lines.lineEnd_eq hfrom,
      Lines.lineEnd_eq hfrom', hfrom.slice_takeWhile, hfrom'.slice_takeWhile]
    rw [hline, trimEnd_append hblank, trimEnd_crlf, withCrlf, String.toList_ofList]

end Carried

-- A change of line ends does not change what a scan finds.
theorem Requires.of_withCrlf (source : String) (h : '\r' ∉ source.toList) :
    Agree (StaticCall.Converted source) Span.SamePlace DynamicCall.Converted (of source)
      (of (withCrlf source)) := by
  have hcarries : Carries (Token.Converted source.toList) (StaticCall.Converted source)
      Span.SamePlace DynamicCall.Converted source (withCrlf source) (.of source)
      (.of (withCrlf source)) ([] ++ lex source) :=
    { similar := fun _ _ => Token.Converted.similar
      call := call_converted
      value := fun ht => samePlace_span ht.start _ _
      dynamic := dynamicCall_converted }
  exact hcarries.agree (converted_lex h) ⟨rfl, rfl⟩

-- A first line that is skipped, a long bracket with a line end in front of its text and one in it,
-- and a literal that is joined of a continued line and a long bracket.
def brokenLines : String :=
  "#!lua\nrequire[[\na\nb]]require('x\\\n'..[=[y\nz]=]) --\nf(require)\n"

theorem Requires.of_withCrlf_brokenLines :
    '\r' ∉ brokenLines.toList ∧
      (of brokenLines).toOption.map outline = some (["a\nb", "x\ny\nz"], 1) ∧
      (of (withCrlf brokenLines)).toOption.map outline = some (["a\r\nb", "x\ny\r\nz"], 1) ∧
      Agree (StaticCall.Converted brokenLines) Span.SamePlace DynamicCall.Converted
        (of brokenLines) (of (withCrlf brokenLines)) := by
  have h : '\r' ∉ brokenLines.toList := by decide +kernel
  have hagree := of_withCrlf brokenLines h
  have hfeeds : (of brokenLines).toOption.map outline = some (["a\nb", "x\ny\nz"], 1) := by
    decide +kernel
  have hreturns :
      (of (withCrlf brokenLines)).toOption.map outline = some (["a\r\nb", "x\ny\r\nz"], 1) := by
    decide +kernel
  exact ⟨h, hfeeds, hreturns, hagree⟩

end LuaBundle

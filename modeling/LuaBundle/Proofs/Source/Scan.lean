import LuaBundle.Proofs.Lua.Places
import LuaBundle.Proofs.Source.Lines
import LuaBundle.Proofs.Source.Mention

namespace LuaBundle

open Lua Text

-- A token of a list with the tokens before and after it.
structure Occurrence (tokens : List Token) where
  earlier : List Token
  token : Token
  after : List Token
  eq : tokens = earlier ++ token :: after

namespace Occurrence

variable {tokens : List Token}

def before (o : Occurrence tokens) : Option Token :=
  o.earlier.getLast?

def mention (o : Occurrence tokens) : Mention :=
  .of o.before o.token o.after

end Occurrence

namespace Requires

variable {source : String} {lines : Lines} {before : Option Token} {t : Token}
  {tokens : List Token}

-- What each token of a list is, in order, with the token.
def mentions (before : Option Token) : List Token → List (Token × Mention)
  | [] => []
  | t :: after => (t, .of before t after) :: mentions (some t) after

theorem mem_mentions_iff {m : Mention} :
    (t, m) ∈ mentions before tokens ↔
      ∃ earlier after, tokens = earlier ++ t :: after ∧
        m = .of (earlier.getLast?.or before) t after := by
  induction tokens generalizing before with
  | nil => simp [mentions]
  | cons d tokens ih =>
    have hlast (earlier : List Token) :
        (d :: earlier).getLast?.or before = earlier.getLast?.or (some d) := by
      cases h : earlier.getLast? <;> simp [List.getLast?_cons, h]
    rw [mentions, List.mem_cons, ih]
    constructor
    case mp =>
      rintro (h | ⟨earlier, after, rfl, rfl⟩)
      case inl =>
        obtain ⟨rfl, rfl⟩ := by simpa using h
        exact ⟨[], tokens, rfl, rfl⟩
      case inr => exact ⟨d :: earlier, after, rfl, by rw [hlast]⟩
    case mpr =>
      rintro ⟨earlier, after, h, rfl⟩
      cases earlier with
      | nil =>
        obtain ⟨rfl, rfl⟩ := by simpa using h
        exact .inl rfl
      | cons e earlier =>
        obtain ⟨rfl, rfl⟩ := by simpa using h
        exact .inr ⟨earlier, after, rfl, by rw [hlast]⟩

theorem mem_mentions_none_iff {m : Mention} :
    (t, m) ∈ mentions none tokens ↔ ∃ o : Occurrence tokens, o.token = t ∧ o.mention = m := by
  rw [mem_mentions_iff]
  constructor
  case mp =>
    rintro ⟨earlier, after, h, rfl⟩
    exact ⟨⟨earlier, t, after, h⟩, rfl, by simp [Occurrence.mention, Occurrence.before]⟩
  case mpr =>
    rintro ⟨⟨earlier, d, after, h⟩, rfl, rfl⟩
    exact ⟨earlier, after, h, by simp [Occurrence.mention, Occurrence.before]⟩

def call? (lines : Lines) : Token × Mention → Option StaticCall
  | (t, .static literal stop) => some ⟨literal, lines.span t.start stop⟩
  | _ => none

def valueUse? (lines : Lines) : Token × Mention → Option Span
  | (t, .value) => some (lines.span t.start t.stop)
  | _ => none

def dynamic? (source : String) (lines : Lines) : Token × Mention → Option DynamicCall
  | (t, .dynamic stop) => some (dynamicCall source lines t.start stop)
  | _ => none

theorem of_call?_eq_some {m : Mention} {call : StaticCall} (h : call? lines (t, m) = some call) :
    ∃ literal stop, m = .static literal stop ∧ call = ⟨literal, lines.span t.start stop⟩ := by
  cases m <;> cases h
  exact ⟨_, _, rfl, rfl⟩

theorem of_valueUse?_eq_some {m : Mention} {span : Span} (h : valueUse? lines (t, m) = some span) :
    m = .value ∧ span = lines.span t.start t.stop := by
  cases m <;> cases h
  exact ⟨rfl, rfl⟩

theorem of_dynamic?_eq_some {m : Mention} {e : DynamicCall}
    (h : dynamic? source lines (t, m) = some e) :
    ∃ stop, m = .dynamic stop ∧ e = dynamicCall source lines t.start stop := by
  cases m <;> cases h
  exact ⟨_, rfl, rfl⟩

-- The first dynamic call decides, and without one each mention adds what it is.
theorem ofTokens_eq :
    ofTokens source lines before tokens =
      match (mentions before tokens).findSome? (dynamic? source lines) with
      | some e => .error e
      | none => .ok ⟨(mentions before tokens).filterMap (call? lines),
          (mentions before tokens).filterMap (valueUse? lines)⟩ := by
  induction tokens generalizing before with
  | nil => rfl
  | cons t after ih =>
    have ih := @ih (some t)
    rw [mentions, ofTokens]
    cases hm : Mention.of before t after with
    | static literal stop =>
      simp only [ih, List.findSome?_cons, dynamic?, List.filterMap_cons, call?, valueUse?]
      cases (mentions (some t) after).findSome? (dynamic? source lines) <;> rfl
    | dynamic stop => simp [List.findSome?_cons, dynamic?]
    | value =>
      simp only [ih, List.findSome?_cons, dynamic?, List.filterMap_cons, call?, valueUse?]
      cases (mentions (some t) after).findSome? (dynamic? source lines) <;> rfl
    | other => simp [ih, List.findSome?_cons, dynamic?, List.filterMap_cons, call?, valueUse?]

theorem map_fst_mentions (before : Option Token) (tokens : List Token) :
    (mentions before tokens).map Prod.fst = tokens := by
  induction tokens generalizing before with
  | nil => rfl
  | cons t after ih => rw [mentions, List.map_cons, ih]

section StaticCalls

variable {inner after later : List Token} {last : Token} {call : StaticCall}

def staticCalls (lines : Lines) (before : Option Token) (tokens : List Token) : List StaticCall :=
  (mentions before tokens).filterMap (call? lines)

theorem calls_eq_staticCalls {r : Requires} (h : Requires.of source = .ok r) :
    r.calls = staticCalls (.of source) none (lex source) := by
  rw [Requires.of, ofTokens_eq] at h
  cases hd : (mentions none (lex source)).findSome? (dynamic? source (.of source)) with
  | some e => simp [hd] at h
  | none =>
    obtain rfl := Except.ok.inj (by simpa only [hd] using h)
    rfl

theorem staticCalls_cons :
    staticCalls lines before (t :: after) =
      (call? lines (t, .of before t after)).toList ++ staticCalls lines (some t) after := by
  rw [staticCalls, mentions, List.filterMap_cons]
  cases call? lines (t, .of before t after) <;> rfl

theorem staticCalls_cons_cases (lines : Lines) (before : Option Token) (t : Token)
    (after : List Token) :
    staticCalls lines before (t :: after) = staticCalls lines (some t) after ∨
      ∃ literal stop, Mention.of before t after = .static literal stop ∧
        staticCalls lines before (t :: after) =
          ⟨literal, lines.span t.start stop⟩ :: staticCalls lines (some t) after := by
  rw [staticCalls_cons]
  cases Mention.of before t after with
  | static literal stop => exact .inr ⟨literal, stop, rfl, rfl⟩
  | dynamic | value | other => exact .inl rfl

-- There is no call in the arguments of a call.
theorem staticCalls_append (h : ∀ u ∈ inner ++ [last], Mention.IsArgument u) :
    staticCalls lines before (inner ++ last :: later) = staticCalls lines (some last) later := by
  have hl {u : Token} {before : Option Token} (hu : Mention.IsArgument u) :
      ¬ Mention.Live before u := fun hl => hu.ne_name _ hl.1
  induction inner generalizing before with
  | nil =>
    rw [List.nil_append, staticCalls_cons, Mention.of_not_live (hl (h last (by simp)))]
    rfl
  | cons u inner ih =>
    rw [List.cons_append, staticCalls_cons, Mention.of_not_live (hl (h u (by simp)))]
    exact ih fun v hv => h v (.tail u hv)

theorem exists_token_of_mem_staticCalls (h : call ∈ staticCalls lines before tokens) :
    ∃ t ∈ tokens, call.span.start = t.start := by
  obtain ⟨⟨t, m⟩, hm, hc⟩ := List.mem_filterMap.mp h
  obtain ⟨literal, stop, -, rfl⟩ := of_call?_eq_some hc
  exact ⟨t, map_fst_mentions before tokens ▸ List.mem_map_of_mem hm, rfl⟩

end StaticCalls

theorem pairwise_mentions (source : String) :
    (mentions none (lex source)).Pairwise fun p q => p.1.start < q.1.start := by
  have hm := map_fst_mentions none (lex source)
  have ho := inOrder_lex source
  have hp : (lex source).Pairwise fun t u => t.start < u.start :=
    ho.pairwise.imp_of_mem fun ht _ hle => Nat.lt_of_lt_of_le (ho.bounds _ ht) hle
  rw [← hm, List.pairwise_map] at hp
  exact hp

end Requires

namespace Occurrence

variable {source : String} (o : Occurrence (lex source))

-- A token reaches from its start to its stop, and from its start to the stop of a later one.
theorem reaches {last : Token} (h : last = o.token ∨ last ∈ o.after) :
    ∃ text rest, From source.toList o.token.start (text ++ rest) ∧
      o.token.start + size text = last.stop := by
  obtain ⟨skipped, program, hs, hl⟩ := lex_eq source
  obtain ⟨before, text, rest, hp, -, hstart, hstop, hafter, -⟩ :=
    lexFrom_eq_append (hl.symm.trans o.eq)
  have hfrom : From source.toList o.token.start (text ++ rest) :=
    ⟨skipped ++ before, by rw [hs, hp, List.append_assoc], by rw [size_append, hstart]⟩
  rcases h with rfl | h
  case inl => exact ⟨text, rest, hfrom, hstop.symm⟩
  case inr =>
    obtain ⟨earlier, later, he⟩ := List.append_of_mem h
    obtain ⟨before', text', rest', hr, -, hstart', hstop', -, -⟩ :=
      lexFrom_eq_append (hafter.symm.trans he)
    refine ⟨text ++ (before' ++ text'), rest', ?_, ?_⟩
    · rw [hr] at hfrom
      simpa using hfrom
    · simp only [size_append]
      omega

-- A span from the token to a place in the source.
def Spans (span : Span) (stop : Nat) : Prop :=
  span.start = o.token.start ∧ span.stop = stop ∧ ∃ text, span.Covers source text

theorem spans_span {last : Token} (h : last = o.token ∨ last ∈ o.after) :
    o.Spans ((Lines.of source).span o.token.start last.stop) last.stop := by
  obtain ⟨text, rest, hfrom, hstop⟩ := o.reaches h
  exact ⟨rfl, rfl, text, Lines.covers_span hfrom hstop⟩

theorem Spans.eq {span : Span} {stop : Nat} (h : o.Spans span stop) :
    span = (Lines.of source).span o.token.start stop := by
  obtain ⟨hstart, hstop, text, before, rest, hs, rfl⟩ := h
  rw [← hstart, ← hstop]
  exact (Lines.span_eq hs).symm

-- The token is the global function `require`.
def Live : Prop :=
  Mention.Live o.before o.token

-- The token begins a static call.
def IsStatic (call : StaticCall) : Prop :=
  o.Live ∧ Mention.Static o.after call.literal call.span.stop ∧ o.Spans call.span call.span.stop

-- The token begins a dynamic call.
def IsDynamic : Prop :=
  o.Live ∧ Mention.Dynamic o.after

-- The token is a value, at a span.
def IsValue (span : Span) : Prop :=
  o.Live ∧ Mention.Value o.before o.after ∧ o.Spans span o.token.stop

-- A dynamic call as it is shown: from the token to the bracket that closes the call, or to the end
-- of the line of the token if none does.
def Shows (e : DynamicCall) : Prop :=
  ∃ opening rest stop text later, o.after = opening :: rest ∧ Mention.Closes 1 rest stop ∧
    From source.toList o.token.start (text ++ later) ∧
    (∀ n ∈ stop, o.token.start + size text = n) ∧
    (stop = none → text = (text ++ later).takeWhile (· ≠ '\n')) ∧
    e.call = String.ofList (trimEnd text) ∧ o.Spans e.span (o.token.start + size text)

variable {o}

theorem isStatic_of_mention {literal : String} {stop : Nat} (h : o.mention = .static literal stop) :
    o.IsStatic ⟨literal, (Lines.of source).span o.token.start stop⟩ := by
  obtain ⟨hl, hs⟩ := Mention.of_eq_static_iff.mp h
  obtain ⟨inner, last, later, ha, hstop, -⟩ := hs.exists_append
  refine ⟨hl, hs, ?_⟩
  subst hstop
  exact o.spans_span (.inr (by rw [ha]; simp))

theorem shows_of_mention {stop : Option Nat} (h : o.mention = .dynamic stop) :
    o.Shows (Requires.dynamicCall source (.of source) o.token.start stop) := by
  obtain ⟨hl, hd⟩ := Mention.of_eq_dynamic_iff.mp ⟨stop, h⟩
  obtain ⟨opening, rest, stop', ha, hc, hm⟩ := Mention.of_dynamic hl hd
  obtain rfl : stop' = stop := Mention.dynamic.inj (hm.symm.trans h)
  cases stop' with
  | some n =>
    have ⟨inner, close, rest', hr, hclose, _⟩ := hc
    subst hclose
    have hmem : close ∈ o.after := by simp [ha, hr]
    obtain ⟨text, later, hfrom, hstop⟩ := o.reaches (.inr hmem)
    refine ⟨opening, rest, some close.stop, text, later, ha, hc, hfrom, by simp [hstop], by simp,
      ?_, ?_⟩
    · simp only [Requires.dynamicCall, Option.getD_some, ← hstop, hfrom.slice_eq]
    · exact hstop ▸ o.spans_span (.inr hmem)
  | none =>
    obtain ⟨text, later, hfrom, -⟩ := o.reaches (.inl rfl)
    have hline := Lines.lineEnd_eq hfrom
    have hsplit :=
      List.takeWhile_append_dropWhile (p := fun c => decide (c ≠ '\n')) (l := text ++ later)
    generalize text ++ later = line at hfrom hline hsplit
    rw [← hsplit] at hfrom
    refine ⟨opening, rest, none, _, _, ha, hc, hfrom, by simp, by rw [hsplit]; simp, ?_, ?_⟩
    · simp only [Requires.dynamicCall, Option.getD_none, hline, hfrom.slice_eq]
    · exact ⟨rfl, hline, _, Lines.covers_span hfrom hline.symm⟩

theorem isValue_of_mention (h : o.mention = .value) :
    o.IsValue ((Lines.of source).span o.token.start o.token.stop) := by
  obtain ⟨hl, hv⟩ := Mention.of_eq_value_iff.mp h
  exact ⟨hl, hv, o.spans_span (.inl rfl)⟩

end Occurrence

namespace Requires

variable {source : String}

theorem mem_filterMap_call?_iff {call : StaticCall} :
    call ∈ (mentions none (lex source)).filterMap (call? (.of source)) ↔
      ∃ o : Occurrence (lex source), o.IsStatic call := by
  rw [List.mem_filterMap]
  constructor
  case mp =>
    rintro ⟨⟨t, m⟩, hm, hc⟩
    obtain ⟨o, rfl, rfl⟩ := mem_mentions_none_iff.mp hm
    obtain ⟨literal, stop, hm, rfl⟩ := of_call?_eq_some hc
    exact ⟨o, o.isStatic_of_mention hm⟩
  case mpr =>
    rintro ⟨o, hl, hs, hspan⟩
    have hm : o.mention = .static call.literal call.span.stop := Mention.of_static hl hs
    refine ⟨(o.token, o.mention), mem_mentions_none_iff.mpr ⟨o, rfl, rfl⟩, ?_⟩
    rw [hm, call?, ← hspan.eq]

theorem mem_filterMap_valueUse?_iff {span : Span} :
    span ∈ (mentions none (lex source)).filterMap (valueUse? (.of source)) ↔
      ∃ o : Occurrence (lex source), o.IsValue span := by
  rw [List.mem_filterMap]
  constructor
  case mp =>
    rintro ⟨⟨t, m⟩, hm, hc⟩
    obtain ⟨o, rfl, rfl⟩ := mem_mentions_none_iff.mp hm
    obtain ⟨hm, rfl⟩ := of_valueUse?_eq_some hc
    exact ⟨o, o.isValue_of_mention hm⟩
  case mpr =>
    rintro ⟨o, hl, hv, hspan⟩
    have hm : o.mention = .value := Mention.of_value hl hv
    refine ⟨(o.token, o.mention), mem_mentions_none_iff.mpr ⟨o, rfl, rfl⟩, ?_⟩
    rw [hm, valueUse?, ← hspan.eq]

theorem findSome?_dynamic?_eq_none_iff :
    (mentions none (lex source)).findSome? (dynamic? source (.of source)) = none ↔
      ∀ o : Occurrence (lex source), ¬ o.IsDynamic := by
  rw [List.findSome?_eq_none_iff]
  constructor
  case mp =>
    intro h o hd
    obtain ⟨stop, hm⟩ := Mention.of_eq_dynamic_iff.mpr hd
    have := h (o.token, o.mention) (mem_mentions_none_iff.mpr ⟨o, rfl, rfl⟩)
    simp only [Occurrence.mention, hm, dynamic?] at this
    cases this
  case mpr =>
    rintro h ⟨t, m⟩ hm
    obtain ⟨o, rfl, rfl⟩ := mem_mentions_none_iff.mp hm
    refine Option.eq_none_iff_forall_ne_some.mpr fun e he => ?_
    obtain ⟨stop, hm, -⟩ := of_dynamic?_eq_some he
    exact h o (Mention.of_eq_dynamic_iff.mp ⟨stop, hm⟩)

-- The dynamic call that is found is the first one.
theorem first_of_findSome? {e : DynamicCall}
    (h : (mentions none (lex source)).findSome? (dynamic? source (.of source)) = some e) :
    ∃ o : Occurrence (lex source), o.IsDynamic ∧ o.Shows e ∧
      ∀ o' : Occurrence (lex source), o'.IsDynamic → o.token.start ≤ o'.token.start := by
  obtain ⟨earlier, ⟨t, m⟩, later, hsplit, hd, hn⟩ := List.findSome?_eq_some_iff.mp h
  obtain ⟨o, rfl, rfl⟩ := mem_mentions_none_iff.mp (hsplit ▸ List.mem_append_cons_self)
  obtain ⟨stop, hm, rfl⟩ := of_dynamic?_eq_some hd
  refine ⟨o, Mention.of_eq_dynamic_iff.mp ⟨stop, hm⟩, Occurrence.shows_of_mention hm, ?_⟩
  intro o' hd'
  obtain ⟨stop', hm'⟩ := Mention.of_eq_dynamic_iff.mpr hd'
  have hmem : (o'.token, o'.mention) ∈ mentions none (lex source) :=
    mem_mentions_none_iff.mpr ⟨o', rfl, rfl⟩
  have hp := pairwise_mentions source
  rw [hsplit] at hmem hp
  rcases List.mem_append.mp hmem with hmem | hmem
  case inl =>
    have := hn _ hmem
    simp only [Occurrence.mention, hm', dynamic?] at this
    cases this
  case inr =>
    rcases List.mem_cons.mp hmem with heq | hmem
    case inl => exact Nat.le_of_eq (congrArg (·.1.start) heq).symm
    case inr =>
      have hp := (List.pairwise_append.mp hp).2.1
      exact Nat.le_of_lt (List.rel_of_pairwise_cons hp hmem)

theorem pairwise_filterMap {α : Type} {f : Token × Mention → Option α} {start : α → Nat}
    (hf : ∀ p a, f p = some a → start a = p.1.start) :
    ((mentions none (lex source)).filterMap f).Pairwise fun a b => start a < start b := by
  refine List.pairwise_filterMap.mpr ((pairwise_mentions source).imp fun hlt a ha b hb => ?_)
  rw [hf _ a ha, hf _ b hb]
  exact hlt

-- What a source says about `require` is exactly what the grammar says: the first dynamic call if
-- there is one, and else all static calls and all values, in source order.
theorem of_exact (source : String) :
    ((∃ e, Requires.of source = .error e) ↔ ∃ o : Occurrence (lex source), o.IsDynamic) ∧
    (∀ e, Requires.of source = .error e →
      ∃ o : Occurrence (lex source), o.IsDynamic ∧ o.Shows e ∧
        ∀ o' : Occurrence (lex source), o'.IsDynamic → o.token.start ≤ o'.token.start) ∧
    ∀ r, Requires.of source = .ok r →
      (∀ call, call ∈ r.calls ↔ ∃ o : Occurrence (lex source), o.IsStatic call) ∧
      r.calls.Pairwise (·.span.start < ·.span.start) ∧
      (∀ span, span ∈ r.valueUses ↔ ∃ o : Occurrence (lex source), o.IsValue span) ∧
      r.valueUses.Pairwise (·.start < ·.start) := by
  have heq : Requires.of source = _ := ofTokens_eq
  cases hd : (mentions none (lex source)).findSome? (dynamic? source (.of source)) with
  | some e =>
    rw [hd] at heq
    have hfirst := first_of_findSome? hd
    refine ⟨?_, fun e' he => ?_, fun r hr => by simp [heq] at hr⟩
    · obtain ⟨o, ho, -⟩ := hfirst
      exact iff_of_true ⟨e, heq⟩ ⟨o, ho⟩
    · obtain rfl : e = e' := by simpa using heq.symm.trans he
      exact hfirst
  | none =>
    rw [hd] at heq
    have hnone := findSome?_dynamic?_eq_none_iff.mp hd
    refine ⟨?_, fun e he => by simp [heq] at he, fun r hr => ?_⟩
    · refine iff_of_false (fun ⟨e, he⟩ => ?_) (fun ⟨o, ho⟩ => hnone o ho)
      simp [heq] at he
    · obtain rfl : _ = r := Except.ok.inj (heq.symm.trans hr)
      refine ⟨fun call => mem_filterMap_call?_iff, pairwise_filterMap ?_,
        fun span => mem_filterMap_valueUse?_iff, pairwise_filterMap ?_⟩
      · rintro ⟨t, m⟩ call hc
        obtain ⟨literal, stop, -, rfl⟩ := of_call?_eq_some hc
        rfl
      · rintro ⟨t, m⟩ span hc
        obtain ⟨-, rfl⟩ := of_valueUse?_eq_some hc
        rfl

end Requires

end LuaBundle

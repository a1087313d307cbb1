import LuaBundle.Source.Embed
import LuaBundle.Proofs.Source.Rewrite
import LuaBundle.Proofs.Source.Scan

namespace LuaBundle

open Lua Text

namespace Text

theorem cut.go_acc (n : Nat) (s acc : List Char) :
    cut.go n s acc = (acc.reverse ++ (cut n s).1, (cut n s).2) := by
  induction s generalizing n acc with
  | nil => simp [cut, go]
  | cons c s ih =>
    simp only [cut, go]
    split
    case isTrue => rw [ih, ih _ [c]]; simp
    case isFalse => simp

theorem cut_append {n : Nat} {p : List Char} (h : size p ≤ n) (s : List Char) :
    cut n (p ++ s) = (p ++ (cut (n - size p) s).1, (cut (n - size p) s).2) := by
  induction p generalizing n with
  | nil => rfl
  | cons c p ih =>
    simp only [size_cons] at h
    rw [List.cons_append, cut, cut.go, if_pos (by omega), cut.go_acc, ih (by omega), size_cons,
      ← Nat.sub_sub]
    rfl

end Text

namespace Embed

variable {n : Nat} {p s text rest replacement : List Char} {span : Span}
  {more : List (Span × List Char)}

theorem splice_append (h : ∀ call ∈ more, n + size p ≤ call.1.start) :
    splice n (p ++ s) more = p ++ splice (n + size p) s more := by
  cases more with
  | nil => rfl
  | cons call more =>
    have := h call List.mem_cons_self
    simp only [splice]
    rw [cut_append (by omega), Nat.sub_sub, List.append_assoc]

theorem splice_cons (hstart : span.start = n + size p)
    (hstop : span.stop = span.start + size text) :
    splice n (p ++ (text ++ rest)) ((span, replacement) :: more) =
      p ++ (replacement ++ splice span.stop rest more) := by
  have h₁ : span.start - n = size p := by omega
  have h₂ : span.stop - span.start = size text := by omega
  simp only [splice, h₁, h₂, cut_size]

-- The texts that the calls are replaced by.
def replacements (calls : List (Span × String)) : List (Span × List Char) :=
  calls.map fun (span, id) => (span, (requireCall id).toList)

end Embed

section Splice

variable {lines : Lines}

theorem start_le_of_kept {before : Option Token} {n : Nat} {s : List Char}
    {kept : List (Span × String)} (hk : (kept.map Prod.fst).Sublist
      ((Requires.staticCalls lines before (lexFrom n s)).map StaticCall.span)) :
    ∀ call ∈ kept, n ≤ call.1.start := by
  intro call hc
  have hmem := hk.subset (List.mem_map_of_mem hc)
  obtain ⟨static, hs, he⟩ := List.mem_map.mp hmem
  obtain ⟨t, ht, hstart⟩ := Requires.exists_token_of_mem_staticCalls hs
  rw [← he, hstart]
  exact (lexFrom_bounds ht).1

theorem splice_token {n : Nat} {s r : List Char} {c : Char} {kept : List (Span × String)}
    (hs : (trivia s).2 = c :: r)
    (h : ∀ call ∈ kept, n + size (trivia s).1 + size (token c r).text ≤ call.1.start) :
    Embed.splice n s (Embed.replacements kept) =
      (trivia s).1 ++ ((token c r).text ++
        Embed.splice (n + size (trivia s).1 + size (token c r).text) (token c r).rest
          (Embed.replacements kept)) := by
  have hs' := eq_trivia_token_rest hs
  rw [← List.append_assoc] at hs'
  have hk : ∀ call ∈ Embed.replacements kept,
      n + size ((trivia s).1 ++ (token c r).text) ≤ call.1.start := by
    intro call hc
    obtain ⟨kept, hk, rfl⟩ := List.mem_map.mp hc
    simpa [Nat.add_assoc] using h kept hk
  have hsplice := Embed.splice_append (s := (token c r).rest) hk
  rwa [hs', size_append, ← Nat.add_assoc, List.append_assoc] at hsplice

-- A call is replaced from its first token to where the rest of the text stands.
theorem splice_call {n : Nat} {s rest : List Char} {span : Span} {id : String}
    {kept : List (Span × String)} (hfrom : From s (span.stop - n) rest)
    (hstart : span.start = n + size (trivia s).1) (hlt : span.start < span.stop) :
    Embed.splice n s (Embed.replacements ((span, id) :: kept)) =
      (trivia s).1 ++ ((requireCall id).toList ++
        Embed.splice span.stop rest (Embed.replacements kept)) := by
  have hfrom₀ : From s (size (trivia s).1) (trivia s).2 := ⟨_, (trivia_append s).symm, rfl⟩
  obtain ⟨text, htext, hsize⟩ := hfrom₀.exists_of_le hfrom (by omega)
  have hs := trivia_append s
  rw [htext] at hs
  have hsplice : Embed.splice n ((trivia s).1 ++ (text ++ rest))
      ((span, (requireCall id).toList) :: Embed.replacements kept) = _ :=
    Embed.splice_cons hstart (by omega)
  rwa [hs] at hsplice

-- What a static call that a text begins with covers, and what stands behind it.
theorem exists_call {n : Nat} {s : List Char} {t : Token} {after : List Token} {literal : String}
    {stop : Nat} (hs : lexFrom n s = t :: after) (hstatic : Mention.Static after literal stop) :
    ∃ inner last rest, after = inner ++ last :: lexFrom stop rest ∧ From s (stop - n) rest ∧
      t.start < stop ∧ rest.length < s.length ∧ (runsOut s = false → runsOut rest = false) ∧
      (∀ u ∈ inner ++ [last], Mention.IsArgument u) ∧
      ∀ u ∈ t :: inner ++ [last], t.start ≤ u.start ∧ u.stop ≤ stop := by
  obtain ⟨inner, last, later, rfl, rfl, hn⟩ := hstatic.exists_append
  obtain ⟨before, text, rest, hsplit, ht, hstart, hstop, hlater, hrun⟩ :=
    lexFrom_eq_append (List.cons_append ▸ hs)
  have hbetween := InOrder.between (hs ▸ inOrder_lexFrom n s)
  have hlast := hbetween last (by simp)
  refine ⟨inner, last, rest, by simp [← hlater], ⟨before ++ text, by simp [hsplit], ?_⟩, ?_, ?_,
    hrun, hn, hbetween⟩
  · simp only [size_append]
    omega
  · have := size_pos_of_ne_nil ht
    omega
  · have := List.length_pos_iff.mpr ht
    simp only [hsplit, List.length_append]
    omega

-- Replacing some calls of a source rewrites it along its tokens.
theorem rewrites_splice {before : Option Token} {kept : List (Span × String)} (n : Nat)
    (s : List Char) (hk : (kept.map Prod.fst).Sublist
      ((Requires.staticCalls lines before (lexFrom n s)).map StaticCall.span)) :
    Rewrites n s kept (Embed.splice n s (Embed.replacements kept)) := by
  match hs : (trivia s).2 with
  | [] =>
    obtain rfl : kept = [] := by
      simpa [lexFrom_eq_nil hs, Requires.staticCalls, Requires.mentions] using hk
    exact .done hs
  | c :: r =>
    have hlex : lexFrom n s = _ := lexFrom_eq_cons hs
    -- The token is kept unless it begins the first call that is replaced.
    have keep {before : Option Token} (hk : (kept.map Prod.fst).Sublist
        ((Requires.staticCalls lines before
          (lexFrom (n + size (trivia s).1 + size (token c r).text) (token c r).rest)).map
            StaticCall.span)) :
        Rewrites n s kept (Embed.splice n s (Embed.replacements kept)) := by
      have hlater := start_le_of_kept hk
      have := length_token_rest_lt hs
      rw [splice_token hs hlater]
      exact .keep hs hlater (rewrites_splice _ _ hk)
    rw [hlex] at hk
    rcases Requires.staticCalls_cons_cases lines before _ _ with hcalls | ⟨literal, stop, hm, hcalls⟩
    case inl => exact keep (hcalls ▸ hk)
    case inr =>
      rw [hcalls, List.map_cons] at hk
      rcases List.sublist_cons_iff.mp hk with hk | ⟨spans, hspans, hrest⟩
      case inl => exact keep hk
      case inr =>
        obtain ⟨⟨span, id⟩, kept, rfl, hspan, rfl⟩ := List.map_eq_cons_iff.mp hspans
        obtain ⟨hl, hstatic⟩ := Mention.of_eq_static_iff.mp hm
        obtain ⟨inner, last, rest, hinner, hfrom, hlt, hlength, hrun, hn, hbetween⟩ :=
          exists_call hlex hstatic
        have hstart : span.start = n + size (trivia s).1 := congrArg Span.start hspan
        have hstop : span.stop = stop := congrArg Span.stop hspan
        subst hstop
        rw [hinner] at hrest hlex
        rw [List.append_cons] at hlex
        rw [splice_call hfrom hstart (hstart ▸ hlt)]
        refine Rewrites.call hs hl.1 hrun (List.cons_ne_nil _ (inner ++ [last])) ?_ hlex
          (rewrites_splice _ _ (Requires.staticCalls_append hn ▸ hrest))
        intro u hu
        simp only [Span.holds_iff, hstart]
        exact hbetween u hu
termination_by s.length

end Splice

-- The text of a source behind what may stand in front of it.
def program (source : String) : List Char :=
  (preamble source.toList).2

namespace Embed

-- The byte order mark of a text, if it has one, and the text without it.
def mark (s : List Char) : List Char :=
  (s.takeWhile (· = byteOrderMark)).take 1

def unmarked (s : List Char) : List Char :=
  s.drop (mark s).length

theorem preamble_eq (s : List Char) :
    preamble s = (mark s ++ (preamble.hashLine (unmarked s)).1,
      (preamble.hashLine (unmarked s)).2) := by
  unfold preamble
  split
  case h_1 r => simp [unmarked, mark, byteOrderMark]
  case h_2 hn =>
    have hm : s.takeWhile (· = byteOrderMark) = [] := by
      cases s with
      | nil => rfl
      | cons c r =>
        exact List.takeWhile_cons_of_neg (by simpa using fun hc => hn r (by rw [hc]; rfl))
    simp [unmarked, mark, hm]

theorem toList_embed (source : String) (calls : List (Span × String)) :
    (embed source calls).toList =
      (if (unmarked source.toList).head? = some '#' then ['-', '-'] else []) ++
        splice (size (mark source.toList)) (unmarked source.toList) (replacements calls) := by
  rw [embed, String.toList_ofList]
  rfl

end Embed

section Embed

open Embed

variable {source : String} {r : Requires} {kept : List (Span × String)}

theorem program_eq (source : String) :
    program source = (preamble.hashLine (unmarked source.toList)).2 := by
  rw [program, preamble_eq]

theorem lex_eq_lexFrom_program (source : String) :
    lex source =
      lexFrom (size (mark source.toList) + size (preamble.hashLine (unmarked source.toList)).1)
        (program source) := by
  rw [lex, program, preamble_eq]
  simp only [size_append]

-- What stands in front of the program is not touched.
theorem splice_unmarked (hlater : ∀ call ∈ kept,
      size (mark source.toList) + size (preamble.hashLine (unmarked source.toList)).1 ≤
        call.1.start) :
    splice (size (mark source.toList)) (unmarked source.toList) (replacements kept) =
      (preamble.hashLine (unmarked source.toList)).1 ++
        splice (size (mark source.toList) + size (preamble.hashLine (unmarked source.toList)).1)
          (program source) (replacements kept) := by
  have hr : ∀ call ∈ replacements kept,
      size (mark source.toList) + size (preamble.hashLine (unmarked source.toList)).1 ≤
        call.1.start := by
    intro call hc
    obtain ⟨kept, hk, rfl⟩ := List.mem_map.mp hc
    exact hlater kept hk
  rw [← splice_append hr, program_eq, preamble.hashLine_append]

-- A first line that starts with `#` goes as far as the first line feed.
theorem exists_hashLine {s : List Char} (h : s.head? = some '#') :
    ∃ line, (preamble.hashLine s).1 = '#' :: line ∧ '\n' ∉ line ∧
      (preamble.hashLine s).2.head?.all (· = '\n') := by
  obtain ⟨u, rfl⟩ := List.head?_eq_some_iff.mp h
  rw [preamble.hashLine, if_pos h, List.takeWhile_cons_of_pos (by decide),
    List.dropWhile_cons_of_pos (by decide)]
  refine ⟨_, rfl, fun hn => ?_, ?_⟩
  · simpa using List.mem_takeWhile_imp hn
  · simpa using head?_dropWhile_all (· ≠ '\n') u

-- An embedded source is its program rewritten along its tokens, behind its first line as a comment
-- if that starts with `#`.
theorem exists_embed (h : Requires.of source = .ok r)
    (hk : (kept.map Prod.fst).Sublist (r.calls.map StaticCall.span)) :
    ∃ comment n x, (embed source kept).toList = comment ++ x ∧
      lex source = lexFrom n (program source) ∧ Rewrites n (program source) kept x ∧
      (comment = [] ∨ ∃ line, comment = '-' :: '-' :: '#' :: line ∧ '\n' ∉ line ∧
        (program source).head?.all (· = '\n')) := by
  have hlex := lex_eq_lexFrom_program source
  rw [Requires.calls_eq_staticCalls h, hlex] at hk
  have hx := rewrites_splice _ _ hk
  rw [toList_embed, splice_unmarked (start_le_of_kept hk)]
  by_cases hh : (unmarked source.toList).head? = some '#'
  case neg =>
    have hhash : (preamble.hashLine (unmarked source.toList)).1 = [] := by
      rw [preamble.hashLine, if_neg hh]
    exact ⟨[], _, _, by rw [if_neg hh, hhash]; rfl, hlex, hx, .inl rfl⟩
  case pos =>
    obtain ⟨line, hline, hn, hrest⟩ := exists_hashLine hh
    refine ⟨'-' :: '-' :: '#' :: line, _, _, ?_, hlex, hx, .inr ⟨line, rfl, hn, ?_⟩⟩
    · rw [if_pos hh, hline]
      rfl
    · rwa [program_eq]

theorem embed_comment {line x : List Char} (hn : '\n' ∉ line) (hx : x.head?.all (· = '\n')) :
    kinds ('-' :: '-' :: '#' :: line ++ x) = kinds x ∧
      runsOut ('-' :: '-' :: '#' :: line ++ x) = runsOut x := by
  obtain ⟨ht, hc⟩ := trivia_line (by simpa using hn : '\n' ∉ '#' :: line) (by simp)
  have hr := (runsOut_eq_nil ht).trans hc
  have hk := kinds_eq_nil ht
  cases x with
  | nil =>
    rw [List.append_nil, hk, hr, kinds_nil, runsOut_nil]
    exact ⟨rfl, rfl⟩
  | cons c x =>
    have ha : Apart ('-' :: '-' :: '#' :: line) (c :: x) := .inr (by simpa using hx)
    rw [kinds_append hr ha, runsOut_append hr ha, hk]
    exact ⟨rfl, rfl⟩

theorem kinds_embed (h : Requires.of source = .ok r)
    (hk : (kept.map Prod.fst).Sublist (r.calls.map StaticCall.span)) :
    kinds (embed source kept).toList = substitute kept (lex source) ∧
      (runsOut (program source) = false → runsOut (embed source kept).toList = false) := by
  obtain ⟨comment, n, x, hx, hlex, hrw, rfl | ⟨line, rfl, hn, hp⟩⟩ := exists_embed h hk
  case inl =>
    rw [hx, hlex, List.nil_append]
    exact ⟨hrw.kinds_eq, hrw.not_runsOut⟩
  case inr =>
    have hhead : x.head?.all (· = '\n') := by
      rw [hrw.startsAlike.head?_eq]
      · exact hp
      · intro hr
        simp [hr] at hp
    obtain ⟨hkinds, hrun⟩ := embed_comment hn hhead
    rw [hx, hkinds, hrun, hlex]
    exact ⟨hrw.kinds_eq, hrw.not_runsOut⟩

end Embed

theorem lex_map_kind {s : String} (h : preamble s.toList = ([], s.toList)) :
    (lex s).map Token.kind = kinds s.toList := by
  rw [lex, h, lexFrom_map_kind]

theorem lex_line_feed (s : String) : (lex ("\n" ++ s)).map Token.kind = kinds s.toList := by
  rw [lex_line_feed_append, lexFrom_map_kind]

end LuaBundle

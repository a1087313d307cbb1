import LuaBundle.Source.Requires

namespace LuaBundle.Mention

open Lua

-- The global function `require`: members, methods and definitions of that name are other things.
def Live (before : Option Token) (t : Token) : Prop :=
  t.kind = .name "require" ∧
    ∀ b ∈ before, b.kind ≠ .symbol "." ∧ b.kind ≠ .symbol ":" ∧ b.kind ≠ .name "function"

-- Strings joined by `..` and ended by a `)`, with the text they make up together and the end of
-- the `)`.
inductive Parts : List Token → String → Nat → Prop
  | last {part : String} {start stop : Nat} {close : Token} {rest : List Token}
      (hc : close.kind = .symbol ")") :
      Parts (⟨.str part, start, stop⟩ :: close :: rest) part close.stop
  | joined {part more : String} {start stop last : Nat} {dots : Token} {rest : List Token}
      (hd : dots.kind = .symbol "..") (hm : Parts rest more last) :
      Parts (⟨.str part, start, stop⟩ :: dots :: rest) (part ++ more) last

-- What makes a call static: a string, or parts in parentheses.
inductive Static : List Token → String → Nat → Prop
  | string {literal : String} {start stop : Nat} {rest : List Token} :
      Static (⟨.str literal, start, stop⟩ :: rest) literal stop
  | parenthesized {literal : String} {stop : Nat} {opening : Token} {rest : List Token}
      (ho : opening.kind = .symbol "(") (hp : Parts rest literal stop) :
      Static (opening :: rest) literal stop

-- What makes a call dynamic: a table, or parentheses that hold anything but strings.
inductive Dynamic : List Token → Prop
  | table {opening : Token} {rest : List Token} (ho : opening.kind = .symbol "\x7b") :
      Dynamic (opening :: rest)
  | parenthesized {opening : Token} {rest : List Token} (ho : opening.kind = .symbol "(")
      (hp : ∀ literal stop, ¬ Parts rest literal stop) : Dynamic (opening :: rest)

-- What makes `require` a value: it is not called, assigned or declared.
def Value (before : Option Token) (after : List Token) : Prop :=
  ∀ next ∈ after.head?,
    (∀ literal, next.kind ≠ .str literal) ∧ next.kind ≠ .symbol "(" ∧
      next.kind ≠ .symbol "\x7b" ∧ next.kind ≠ .symbol "=" ∧ ∀ b ∈ before, b.kind ≠ .name "local"

-- A token of the argument of a static call.
def IsArgument (t : Token) : Prop :=
  (∃ part, t.kind = .str part) ∨ t.kind = .symbol "(" ∨ t.kind = .symbol ")" ∨ t.kind = .symbol ".."

theorem IsArgument.ne_name {t : Token} (h : IsArgument t) (name : String) : t.kind ≠ .name name := by
  rcases h with ⟨part, h⟩ | h | h | h <;> simp [h]

-- The tokens of a static call behind `require`.
theorem Parts.exists_append {tokens : List Token} {literal : String} {stop : Nat}
    (h : Parts tokens literal stop) :
    ∃ inner last later, tokens = inner ++ last :: later ∧ last.stop = stop ∧
      ∀ t ∈ inner ++ [last], IsArgument t := by
  induction h with
  | @last part start stop close rest hc =>
    exact ⟨[⟨.str part, start, stop⟩], close, rest, rfl, rfl, by simp [IsArgument, hc]⟩
  | @joined part more start stop last dots rest hd hm ih =>
    obtain ⟨inner, last, later, rfl, hstop, hn⟩ := ih
    refine ⟨⟨.str part, start, stop⟩ :: dots :: inner, last, later, rfl, hstop, fun t ht => ?_⟩
    rcases List.mem_cons.mp ht with rfl | ht
    case inl => exact .inl ⟨part, rfl⟩
    rcases List.mem_cons.mp ht with rfl | ht
    case inl => exact .inr (.inr (.inr hd))
    case inr => exact hn t ht

theorem Static.exists_append {after : List Token} {literal : String} {stop : Nat}
    (h : Static after literal stop) :
    ∃ inner last later, after = inner ++ last :: later ∧ last.stop = stop ∧
      ∀ t ∈ inner ++ [last], IsArgument t := by
  cases h with
  | @string _ start _ rest =>
    exact ⟨[], ⟨.str literal, start, stop⟩, rest, rfl, rfl, by simp [IsArgument]⟩
  | @parenthesized _ _ opening rest ho hp =>
    obtain ⟨inner, last, later, rfl, hstop, hn⟩ := hp.exists_append
    refine ⟨opening :: inner, last, later, rfl, hstop, fun t ht => ?_⟩
    rcases List.mem_cons.mp ht with rfl | ht
    case inl => exact .inr (.inl ho)
    case inr => exact hn t ht

section Depth

def rise (t : Token) : Int :=
  if t.isOpening then 1 else if t.isClosing then -1 else 0

-- How many more brackets open than close.
@[simp]
def depth : List Token → Int
  | [] => 0
  | t :: tokens => rise t + depth tokens

-- Where the depth, which is `start` in front of the tokens, first comes back to zero: the end of
-- the token that brings it there, or `none` if no token does.
def Closes (start : Int) (tokens : List Token) : Option Nat → Prop
  | some stop => ∃ inner close later, tokens = inner ++ close :: later ∧ close.stop = stop ∧
      start + depth (inner ++ [close]) = 0 ∧ ∀ p, p <+: inner → start + depth p ≠ 0
  | none => ∀ p, p <+: tokens → start + depth p ≠ 0

theorem Closes.cons {start : Int} {t : Token} {tokens : List Token} {stop : Option Nat}
    (hs : start ≠ 0) (h : Closes (start + rise t) tokens stop) :
    Closes start (t :: tokens) stop := by
  cases stop with
  | some stop =>
    obtain ⟨inner, close, later, rfl, hstop, hz, hp⟩ := h
    refine ⟨t :: inner, close, later, rfl, hstop, ?_, fun p hpre => ?_⟩
    · simpa [Int.add_assoc] using hz
    · rcases List.prefix_cons_iff.mp hpre with rfl | ⟨p, rfl, hq⟩
      case inl => simpa using hs
      case inr => simpa [Int.add_assoc] using hp p hq
  | none =>
    intro p hpre
    rcases List.prefix_cons_iff.mp hpre with rfl | ⟨p, rfl, hq⟩
    case inl => simpa using hs
    case inr => simpa [Int.add_assoc] using h p hq

theorem closes_closing? {start : Nat} (hs : 0 < start) (tokens : List Token) :
    Closes start tokens (closing? start tokens) := by
  have hs' : (start : Int) ≠ 0 := by omega
  induction tokens generalizing start with
  | nil =>
    intro p hp
    obtain rfl := List.prefix_nil.mp hp
    simpa using hs'
  | cons t tokens ih =>
    rw [closing?]
    split
    case isTrue ho =>
      have : Closes ((start + 1 : Nat) : Int) tokens _ := ih (by omega) (by omega)
      exact .cons hs' (by simpa [rise, ho] using this)
    case isFalse ho =>
      split
      case isTrue hc =>
        split
        case isTrue hd =>
          obtain rfl : start = 1 := by omega
          refine ⟨[], t, tokens, rfl, rfl, by simp [rise, ho, hc], fun p hp => ?_⟩
          obtain rfl := List.prefix_nil.mp hp
          simp
        case isFalse hd =>
          have : Closes ((start - 1 : Nat) : Int) tokens _ := ih (by omega) (by omega)
          rw [Int.ofNat_sub (by omega)] at this
          exact .cons hs' (by simpa [rise, ho, hc, Int.sub_eq_add_neg] using this)
      case isFalse hc => exact .cons hs' (by simpa [rise, ho, hc] using ih hs hs')

theorem closes_closing?_opening {opening : Token} (ho : opening.isOpening) (rest : List Token) :
    Closes 1 rest (closing? 0 (opening :: rest)) := by
  rw [closing?, if_pos ho]
  exact closes_closing? (by decide) rest

end Depth

section Classification

variable {before : Option Token} {t : Token} {after : List Token}

theorem staticArgument?_eq_some_iff {tokens : List Token} {literal : String} {stop : Nat} :
    staticArgument? tokens = some (literal, stop) ↔ Parts tokens literal stop := by
  constructor
  case mp =>
    intro h
    fun_induction staticArgument? tokens generalizing literal stop with
    | case1 part start stop' close rest hc =>
      obtain ⟨rfl, rfl⟩ := by simpa using h
      exact .last (by simpa [Token.isSymbol] using hc)
    | case2 part start stop' dots rest hc hd ih =>
      simp only [Option.map_eq_some_iff, Prod.mk.injEq] at h
      obtain ⟨⟨more, last⟩, hm, rfl, rfl⟩ := h
      exact .joined (by simpa [Token.isSymbol] using hd) (ih hm)
    | case3 => cases h
    | case4 => cases h
  case mpr =>
    intro h
    induction h with
    | last hc => simp [staticArgument?, Token.isSymbol, hc]
    | joined hd hm ih => simp [staticArgument?, Token.isSymbol, hd, ih]

theorem live_iff :
    Live before t ↔ t.isName "require" = true ∧ isForeign before = false := by
  cases before <;> simp [Live, isForeign, Token.isName, Token.isSymbol, and_assoc]

theorem of_not_live (h : ¬ Live before t) : Mention.of before t after = .other := by
  rw [Mention.of.eq_def, if_pos]
  rw [live_iff] at h
  cases ht : t.isName "require" <;> simp_all

theorem of_static (hl : Live before t) {literal : String} {stop : Nat}
    (hs : Static after literal stop) : Mention.of before t after = .static literal stop := by
  obtain ⟨ht, hf⟩ := live_iff.mp hl
  cases hs with
  | string => simp [Mention.of, ht, hf]
  | @parenthesized _ _ opening rest ho hp =>
    obtain ⟨kind, start, last⟩ := opening
    obtain rfl : kind = .symbol "(" := ho
    simp [Mention.of, ht, hf, Token.isSymbol, staticArgument?_eq_some_iff.mpr hp]

theorem of_dynamic (hl : Live before t) (hd : Dynamic after) :
    ∃ opening rest stop, after = opening :: rest ∧ Closes 1 rest stop ∧
      Mention.of before t after = .dynamic stop := by
  obtain ⟨ht, hf⟩ := live_iff.mp hl
  cases hd with
  | @table opening rest ho =>
    have hopening : opening.isOpening := by simp [Token.isOpening, Token.isSymbol, ho]
    have hc := closes_closing?_opening hopening rest
    obtain ⟨kind, start, last⟩ := opening
    obtain rfl : kind = .symbol "\x7b" := ho
    exact ⟨_, rest, _, rfl, hc, by simp [Mention.of, ht, hf, Token.isSymbol]⟩
  | @parenthesized opening rest ho hp =>
    have hopening : opening.isOpening := by simp [Token.isOpening, Token.isSymbol, ho]
    have hc := closes_closing?_opening hopening rest
    obtain ⟨kind, start, last⟩ := opening
    obtain rfl : kind = .symbol "(" := ho
    have hn : staticArgument? rest = none := by
      refine Option.eq_none_iff_forall_ne_some.mpr fun ⟨literal, stop⟩ h => ?_
      exact hp literal stop (staticArgument?_eq_some_iff.mp h)
    exact ⟨_, rest, _, rfl, hc, by simp [Mention.of, ht, hf, Token.isSymbol, hn]⟩

theorem of_value (hl : Live before t) (hv : Value before after) :
    Mention.of before t after = .value := by
  obtain ⟨ht, hf⟩ := live_iff.mp hl
  cases after with
  | nil => simp [Mention.of, ht, hf]
  | cons next rest =>
    obtain ⟨hstr, ho, hb, he, hloc⟩ := hv next rfl
    obtain ⟨kind, start, last⟩ := next
    have hloc : (before.any (·.isName "local")) = false := by
      cases before <;> simp_all [Token.isName]
    cases kind with
    | str literal => exact absurd rfl (hstr literal)
    | name text => simp [Mention.of, ht, hf, Token.isSymbol, hloc]
    | number => simp [Mention.of, ht, hf, Token.isSymbol, hloc]
    | symbol text => simp_all [Mention.of, Token.isSymbol]

-- A live `require` is exactly one of static, dynamic and a value, unless it is assigned or
-- declared.
theorem live_cases (before : Option Token) (after : List Token) :
    (∃ literal stop, Static after literal stop) ∨ Dynamic after ∨ Value before after ∨
      ∃ next ∈ after.head?, (∀ literal, next.kind ≠ .str literal) ∧ next.kind ≠ .symbol "(" ∧
        next.kind ≠ .symbol "\x7b" ∧
        (next.kind = .symbol "=" ∨ ∃ b ∈ before, b.kind = .name "local") := by
  cases after with
  | nil => exact .inr (.inr (.inl (by simp [Value])))
  | cons next rest =>
    obtain ⟨kind, start, stop⟩ := next
    by_cases hs : ∃ literal, kind = .str literal
    case pos =>
      obtain ⟨literal, rfl⟩ := hs
      exact .inl ⟨literal, stop, .string⟩
    by_cases ho : kind = .symbol "("
    case pos =>
      by_cases hp : ∃ literal stop, Parts rest literal stop
      case pos =>
        obtain ⟨literal, stop, hp⟩ := hp
        exact .inl ⟨literal, stop, .parenthesized ho hp⟩
      case neg =>
        exact .inr (.inl (.parenthesized ho fun literal stop h => hp ⟨literal, stop, h⟩))
    by_cases hb : kind = .symbol "\x7b"
    case pos => exact .inr (.inl (.table hb))
    have hs : ∀ literal, kind ≠ .str literal := fun literal h => hs ⟨literal, h⟩
    by_cases hr : kind = .symbol "=" ∨ ∃ b ∈ before, b.kind = .name "local"
    case pos => exact .inr (.inr (.inr ⟨_, rfl, hs, ho, hb, hr⟩))
    case neg =>
      refine .inr (.inr (.inl fun next hn => ?_))
      obtain rfl := Option.some.inj hn
      exact ⟨hs, ho, hb, fun h => hr (.inl h), fun b hb h => hr (.inr ⟨b, hb, h⟩)⟩

theorem of_other (hl : Live before t) {next : Token} {rest : List Token}
    (hs : ∀ literal, next.kind ≠ .str literal) (ho : next.kind ≠ .symbol "(")
    (hb : next.kind ≠ .symbol "\x7b")
    (hr : next.kind = .symbol "=" ∨ ∃ b ∈ before, b.kind = .name "local") :
    Mention.of before t (next :: rest) = .other := by
  obtain ⟨ht, hf⟩ := live_iff.mp hl
  have hr : (next.isSymbol "=" || before.any (·.isName "local")) = true := by
    rcases hr with hr | ⟨b, hb, hr⟩
    case inl => simp [Token.isSymbol, hr]
    case inr =>
      obtain rfl := hb
      simp [Token.isName, hr]
  obtain ⟨kind, start, stop⟩ := next
  cases kind with
  | str literal => exact absurd rfl (hs literal)
  | name text => simpa [Mention.of, ht, hf, Token.isSymbol] using hr
  | number => simpa [Mention.of, ht, hf, Token.isSymbol] using hr
  | symbol text => simp_all [Mention.of, Token.isSymbol]

-- What a token is decides between four readings of what follows it.
theorem of_cases (before : Option Token) (t : Token) (after : List Token) :
    (∃ literal stop, Live before t ∧ Static after literal stop ∧
      Mention.of before t after = .static literal stop) ∨
    (∃ stop, Live before t ∧ Dynamic after ∧ Mention.of before t after = .dynamic stop) ∨
    (Live before t ∧ Value before after ∧ Mention.of before t after = .value) ∨
    Mention.of before t after = .other := by
  by_cases hl : Live before t
  case neg => exact .inr (.inr (.inr (of_not_live hl)))
  rcases live_cases before after with ⟨literal, stop, h⟩ | h | h | ⟨next, hn, hs, ho, hb, hr⟩
  · exact .inl ⟨literal, stop, hl, h, of_static hl h⟩
  · obtain ⟨-, -, stop, -, -, hd⟩ := of_dynamic hl h
    exact .inr (.inl ⟨stop, hl, h, hd⟩)
  · exact .inr (.inr (.inl ⟨hl, h, of_value hl h⟩))
  · obtain ⟨rest, rfl⟩ := List.head?_eq_some_iff.mp hn
    exact .inr (.inr (.inr (of_other hl hs ho hb hr)))

theorem of_eq_static_iff {literal : String} {stop : Nat} :
    Mention.of before t after = .static literal stop ↔
      Live before t ∧ Static after literal stop := by
  refine ⟨fun h => ?_, fun h => of_static h.1 h.2⟩
  rcases of_cases before t after with ⟨l, s, hl, hs, ho⟩ | ⟨s, -, -, ho⟩ | ⟨-, -, ho⟩ | ho
  · obtain ⟨rfl, rfl⟩ := Mention.static.inj (ho.symm.trans h)
    exact ⟨hl, hs⟩
  all_goals cases ho.symm.trans h

theorem of_eq_dynamic_iff :
    (∃ stop, Mention.of before t after = .dynamic stop) ↔ Live before t ∧ Dynamic after := by
  constructor
  case mpr =>
    intro h
    obtain ⟨-, -, stop, -, -, hd⟩ := of_dynamic h.1 h.2
    exact ⟨stop, hd⟩
  case mp =>
    rintro ⟨stop, h⟩
    rcases of_cases before t after with ⟨l, s, -, -, ho⟩ | ⟨s, hl, hd, -⟩ | ⟨-, -, ho⟩ | ho
    case inr.inl => exact ⟨hl, hd⟩
    all_goals cases ho.symm.trans h

theorem of_eq_value_iff :
    Mention.of before t after = .value ↔ Live before t ∧ Value before after := by
  refine ⟨fun h => ?_, fun h => of_value h.1 h.2⟩
  rcases of_cases before t after with ⟨l, s, -, -, ho⟩ | ⟨s, -, -, ho⟩ | ⟨hl, hv, -⟩ | ho
  case inr.inr.inl => exact ⟨hl, hv⟩
  all_goals cases ho.symm.trans h

end Classification

end LuaBundle.Mention

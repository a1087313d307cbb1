import Mathlib.Data.List.Basic
import LuaBundle.Proofs.Lua.Places

namespace LuaBundle.Lua

open Text

-- The two ways to write a number.
inductive Base
  | decimal
  | hexadecimal

namespace Base

-- What stands in front of the first digit.
def starts : Base → List (List Char)
  | decimal => [[]]
  | hexadecimal => [['0', 'x'], ['0', 'X']]

def isDigit : Base → Char → Bool
  | decimal, c => c.isDigit
  | hexadecimal, c => isHexDigit c

-- The letters that an exponent begins with. They are no digits of their base.
def isMark : Base → Char → Bool
  | decimal, c => c = 'e' || c = 'E'
  | hexadecimal, c => c = 'p' || c = 'P'

end Base

-- Digits, with a point among them or without.
inductive IsMantissa (b : Base) : List Char → Prop
  | whole {digits : List Char} (hne : digits ≠ []) (h : ∀ c ∈ digits, b.isDigit c) :
      IsMantissa b digits
  | pointed {digits fraction : List Char} (hne : digits ++ fraction ≠ [])
      (h : ∀ c ∈ digits ++ fraction, b.isDigit c) : IsMantissa b (digits ++ '.' :: fraction)

-- An exponent is written in decimal digits in either base.
inductive IsExponent (b : Base) : List Char → Prop
  | absent : IsExponent b []
  | present {mark : Char} {sign digits : List Char} (hm : b.isMark mark)
      (hs : sign = [] ∨ sign = ['+'] ∨ sign = ['-']) (hne : digits ≠ [])
      (h : ∀ c ∈ digits, c.isDigit) : IsExponent b (mark :: (sign ++ digits))

inductive IsNumeral : List Char → Prop
  | of (b : Base) {start mantissa exponent : List Char} (hs : start ∈ b.starts)
      (hm : IsMantissa b mantissa) (he : IsExponent b exponent) :
      IsNumeral (start ++ (mantissa ++ exponent))

variable {b : Base} {c last : Char} {n s y t mantissa exponent : List Char}

section Characters

theorem isNumeralCharacter_of_isDigit (h : c.isDigit) : isNumeralCharacter c := by
  simp [isNumeralCharacter, Char.isAlphanum, h]

theorem isNumeralCharacter_of_isHexDigit (h : isHexDigit c) : isNumeralCharacter c := by
  have halpha : c.isDigit ∨ c.isAlpha := by
    unfold isHexDigit hexDigit? at h
    split at h
    case isTrue hd => exact .inl hd
    split at h
    case isTrue hl =>
      refine .inr (isAlpha_iff_toNat.mpr (.inr ?_))
      have hlow : 97 ≤ c.toNat := UInt32.le_iff_toNat_le.mp hl.1
      have hhigh : c.toNat ≤ 102 := UInt32.le_iff_toNat_le.mp hl.2
      omega
    split at h
    case isTrue hu =>
      refine .inr (isAlpha_iff_toNat.mpr (.inl ?_))
      have hlow : 65 ≤ c.toNat := UInt32.le_iff_toNat_le.mp hu.1
      have hhigh : c.toNat ≤ 70 := UInt32.le_iff_toNat_le.mp hu.2
      omega
    case isFalse => cases h
  rcases halpha with h | h <;> simp [isNumeralCharacter, Char.isAlphanum, h]

theorem Base.isNumeralCharacter_of_isDigit (h : b.isDigit c) : isNumeralCharacter c := by
  cases b with
  | decimal => exact Lua.isNumeralCharacter_of_isDigit h
  | hexadecimal => exact isNumeralCharacter_of_isHexDigit h

theorem Base.mem_starts_iff {start : List Char} : start ∈ b.starts ↔
    b = .decimal ∧ start = [] ∨
      b = .hexadecimal ∧ ∃ x, (x = 'x' ∨ x = 'X') ∧ start = ['0', x] := by
  cases b <;> simp [starts]

theorem Base.isMark_iff : b.isMark c ↔
    b = .decimal ∧ (c = 'e' ∨ c = 'E') ∨ b = .hexadecimal ∧ (c = 'p' ∨ c = 'P') := by
  cases b <;> simp [isMark]

theorem Base.isNumeralCharacter_of_isMark (h : b.isMark c) : isNumeralCharacter c := by
  rcases isMark_iff.mp h with ⟨-, rfl | rfl⟩ | ⟨-, rfl | rfl⟩ <;> decide

theorem Base.isExponentMark_of_isMark (h : b.isMark c) : isExponentMark c := by
  rcases isMark_iff.mp h with ⟨-, rfl | rfl⟩ | ⟨-, rfl | rfl⟩ <;> decide

-- A character in front of the exponent.
def Base.inMantissa (b : Base) (c : Char) : Bool :=
  b.isDigit c || c = '.'

theorem Base.isNumeralCharacter_of_inMantissa (h : b.inMantissa c) : isNumeralCharacter c := by
  rw [inMantissa, Bool.or_eq_true, decide_eq_true_eq] at h
  rcases h with h | rfl
  case inl => exact b.isNumeralCharacter_of_isDigit h
  case inr => decide

theorem Base.not_inMantissa_of_isMark (h : b.isMark c) : b.inMantissa c = false := by
  rcases isMark_iff.mp h with ⟨rfl, rfl | rfl⟩ | ⟨rfl, rfl | rfl⟩ <;> decide

theorem IsMantissa.inMantissa (h : IsMantissa b mantissa) : ∀ c ∈ mantissa, b.inMantissa c := by
  intro c hc
  cases h with
  | whole _ h => simp [Base.inMantissa, h c hc]
  | @pointed digits fraction _ h =>
    rcases List.mem_append.mp hc with hc | hc
    case inl => simp [Base.inMantissa, h c (List.mem_append_left _ hc)]
    case inr =>
      rcases List.mem_cons.mp hc with rfl | hc
      case inl => simp [Base.inMantissa]
      case inr => simp [Base.inMantissa, h c (List.mem_append_right _ hc)]

theorem IsMantissa.ne_nil (h : IsMantissa b mantissa) : mantissa ≠ [] := by
  cases h with
  | whole hne _ => exact hne
  | pointed _ _ => simp

-- A numeral ends in a digit of its base or in a point.
theorem IsExponent.inMantissa_of_getLast? (he : IsExponent b exponent) (hm : IsMantissa b mantissa)
    (hl : (mantissa ++ exponent).getLast? = some c) : b.inMantissa c := by
  cases he with
  | absent =>
    rw [List.append_nil] at hl
    exact hm.inMantissa c (List.mem_of_getLast? hl)
  | @present mark sign digits _ _ hne hd =>
    have hlast : digits.getLast? = some c := by
      rwa [← List.cons_append, List.getLast?_append_of_ne_nil _ (by simp),
        List.getLast?_append_of_ne_nil _ hne] at hl
    have hdigit := hd c (List.mem_of_getLast? hlast)
    cases b <;> simp [Base.inMantissa, Base.isDigit, isHexDigit, hexDigit?, hdigit]

end Characters

section Tail

theorem numeralTail_eq_of_forall (h : ∀ c ∈ s, isNumeralCharacter c) (last : Char) :
    numeralTail last s = s := by
  induction s generalizing last with
  | nil => rfl
  | cons c s ih =>
    obtain ⟨hc, hs⟩ := List.forall_mem_cons.mp h
    rw [numeralTail, if_pos (by simp [hc]), ih hs]

-- What is read of a text behind one that is read as a whole hangs on the last character alone.
theorem numeralTail_append_of_eq (h : numeralTail last s = s) (y : List Char) :
    numeralTail last (s ++ y) = s ++ numeralTail (s.getLast?.getD last) y := by
  induction s generalizing last with
  | nil => rfl
  | cons c s ih =>
    rw [numeralTail] at h
    split at h
    case isTrue hc =>
      rw [List.cons_append, numeralTail, if_pos hc, ih (List.cons.inj h).2, List.getLast?_cons,
        Option.getD_some, List.cons_append]
    case isFalse => cases h

theorem IsExponent.numeralTail_eq (h : IsExponent b exponent) (last : Char) :
    numeralTail last exponent = exponent := by
  cases h with
  | absent => rfl
  | @present mark sign digits hm hs _ h =>
    have hmark := Base.isNumeralCharacter_of_isMark hm
    have hexponent := Base.isExponentMark_of_isMark hm
    have hdigits := numeralTail_eq_of_forall fun c hc => isNumeralCharacter_of_isDigit (h c hc)
    rw [numeralTail, if_pos (by simp [hmark])]
    rcases hs with rfl | rfl | rfl
    · rw [List.nil_append, hdigits]
    all_goals rw [List.singleton_append, numeralTail, if_pos (by simp [isSign, hexponent]), hdigits]

theorem IsExponent.numeralTail_append_eq (he : IsExponent b exponent)
    (hs : ∀ c ∈ s, isNumeralCharacter c) (last : Char) :
    numeralTail last (s ++ exponent) = s ++ exponent := by
  rw [numeralTail_append_of_eq (numeralTail_eq_of_forall hs last), he.numeralTail_eq]

end Tail

section Longer

variable {mantissa' exponent' : List Char} {x : Char}

theorem IsExponent.head?_append (h : IsExponent b exponent)
    (hy : y.head?.all fun c => !b.inMantissa c) :
    (exponent ++ y).head?.all fun c => !b.inMantissa c := by
  cases h with
  | absent => exact hy
  | present hm _ _ _ => simp [Base.not_inMantissa_of_isMark hm]

-- Where a numeral is the start of another one in the same base, both have the same mantissa, and a
-- sign is one character at most: the first character beyond is a digit or an exponent mark.
theorem IsMantissa.isNumeralCharacter_of_append_eq (hm : IsMantissa b mantissa)
    (he : IsExponent b exponent) (hm' : IsMantissa b mantissa') (he' : IsExponent b exponent')
    (h : mantissa ++ exponent ++ c :: t = mantissa' ++ exponent') : isNumeralCharacter c := by
  by_contra hc
  have hout : b.inMantissa c = false := by
    by_contra hin
    exact hc (Base.isNumeralCharacter_of_inMantissa (by simpa using hin))
  have hhead := he.head?_append (y := c :: t) (by simp [hout])
  have hdrop := dropWhile_append_of_head? hm.inMantissa hhead
  have hdrop' := dropWhile_append_of_head? hm'.inMantissa (he'.head?_append (y := []) rfl)
  rw [← List.append_assoc, h] at hdrop
  rw [List.append_nil, hdrop] at hdrop'
  cases he' with
  | absent => simp at hdrop'
  | @present mark' sign' digits' hmark' hsign' _ hd' =>
    cases he with
    | absent =>
      obtain ⟨rfl, -⟩ := List.cons.inj hdrop'
      exact hc (Base.isNumeralCharacter_of_isMark hmark')
    | @present mark sign digits _ _ hne _ =>
      have hmem : c ∈ (sign' ++ digits').drop 1 := by
        obtain ⟨d, front, hfront⟩ :=
          List.exists_cons_of_ne_nil (List.append_ne_nil_of_right_ne_nil sign hne)
        rw [← (List.cons.inj hdrop').2, hfront]
        simp
      have hdigit : c ∈ digits' := by
        rcases hsign' with rfl | rfl | rfl
        · exact List.mem_of_mem_drop hmem
        all_goals exact hmem
      exact hc (isNumeralCharacter_of_isDigit (hd' c hdigit))

-- The letter behind the zero tells the bases apart.
theorem not_mem_decimal (hx : x = 'x' ∨ x = 'X') (hm : IsMantissa .decimal mantissa)
    (he : IsExponent .decimal exponent) : x ∉ mantissa ++ exponent := by
  have hout : Base.decimal.inMantissa x = false ∧ Base.decimal.isMark x = false ∧
      isSign x = false ∧ x.isDigit = false := by
    rcases hx with rfl | rfl <;> decide
  rw [List.mem_append]
  rintro (hmem | hmem)
  case inl => simp [hm.inMantissa x hmem] at hout
  case inr =>
    cases he with
    | absent => cases hmem
    | @present mark sign digits hmark hs _ hd =>
      have hsign : ∀ c ∈ sign, isSign c := by
        rcases hs with rfl | rfl | rfl <;> simp [isSign]
      rcases List.mem_cons.mp hmem with rfl | hmem
      case inl => simp [hmark] at hout
      case inr =>
        rcases List.mem_append.mp hmem with hmem | hmem
        case inl => simp [hsign x hmem] at hout
        case inr => simp [hd x hmem] at hout

-- No numeral goes on with anything else than it may consist of, a sign behind its end least of all.
theorem IsNumeral.isNumeralCharacter_of_append (h : IsNumeral n) (h' : IsNumeral (n ++ c :: t)) :
    isNumeralCharacter c := by
  generalize hn : n ++ c :: t = n' at h'
  obtain @⟨b, start, mantissa, exponent, hs, hm, he⟩ := h
  obtain @⟨b', start', mantissa', exponent', hs', hm', he'⟩ := h'
  rcases Base.mem_starts_iff.mp hs with ⟨rfl, rfl⟩ | ⟨rfl, x, hx, rfl⟩
  case inl =>
    rcases Base.mem_starts_iff.mp hs' with ⟨rfl, rfl⟩ | ⟨rfl, x, hx, rfl⟩
    case inl => exact hm.isNumeralCharacter_of_append_eq he hm' he' hn
    case inr =>
      have hout := not_mem_decimal hx hm he
      obtain ⟨d, front, hfront⟩ :=
        List.exists_cons_of_ne_nil (List.append_ne_nil_of_left_ne_nil hm.ne_nil exponent)
      rw [hfront] at hout
      rw [List.nil_append, hfront] at hn
      cases front with
      | nil =>
        obtain rfl : c = x := (List.cons.inj (List.cons.inj hn).2).1
        rcases hx with rfl | rfl <;> decide
      | cons d' front =>
        obtain rfl : d' = x := (List.cons.inj (List.cons.inj hn).2).1
        simp at hout
  case inr =>
    rcases Base.mem_starts_iff.mp hs' with ⟨rfl, rfl⟩ | ⟨rfl, x', -, rfl⟩
    case inl =>
      refine absurd ?_ (not_mem_decimal hx hm' he')
      rw [List.nil_append] at hn
      rw [← hn]
      simp
    case inr =>
      exact hm.isNumeralCharacter_of_append_eq he hm' he' (List.cons.inj (List.cons.inj hn).2).2

end Longer

-- A text goes on with a sign behind a letter that is an exponent mark in decimal numerals, and a
-- digit in hexadecimal ones.
def TakesSign (n s : List Char) : Prop :=
  (n.getLast? = some 'e' ∨ n.getLast? = some 'E') ∧ s.head?.any isSign

namespace IsNumeral

-- A numeral begins as a token of numbers does, and is read as a whole.
theorem exists_cons (h : IsNumeral n) :
    ∃ c r, n = c :: r ∧ (c.isDigit ∨ c = '.' ∧ startsWithDigit r) ∧ numeralTail c r = r := by
  obtain @⟨b, start, mantissa, exponent, hs, hm, he⟩ := h
  have body {s : List Char} (h : ∀ c ∈ s, c ∈ mantissa) : ∀ c ∈ s, isNumeralCharacter c :=
    fun c hc => Base.isNumeralCharacter_of_inMantissa (hm.inMantissa c (h c hc))
  rcases Base.mem_starts_iff.mp hs with ⟨rfl, rfl⟩ | ⟨rfl, x, hx, rfl⟩
  case inr =>
    have hx : isNumeralCharacter x := by rcases hx with rfl | rfl <;> decide
    exact ⟨'0', x :: (mantissa ++ exponent), rfl, .inl (by decide),
      he.numeralTail_append_eq (List.forall_mem_cons.mpr ⟨hx, body fun c hc => hc⟩) '0'⟩
  case inl =>
    cases hm with
    | whole hne hd =>
      obtain ⟨d, digits, rfl⟩ := List.exists_cons_of_ne_nil hne
      exact ⟨d, digits ++ exponent, rfl, .inl (hd d List.mem_cons_self),
        he.numeralTail_append_eq (body fun c hc => .tail d hc) d⟩
    | @pointed digits fraction hne hd =>
      cases digits with
      | cons d digits =>
        exact ⟨d, digits ++ '.' :: fraction ++ exponent, rfl, .inl (hd d List.mem_cons_self),
          he.numeralTail_append_eq (body fun c hc => .tail d hc) d⟩
      | nil =>
        obtain ⟨d, fraction, rfl⟩ := List.exists_cons_of_ne_nil hne
        have hdigit : d.isDigit := hd d List.mem_cons_self
        exact ⟨'.', d :: fraction ++ exponent, rfl, .inr ⟨rfl, by simp [startsWithDigit, hdigit]⟩,
          he.numeralTail_append_eq (body fun c hc => .tail '.' hc) '.'⟩

-- The only exponent marks that a numeral can end in are digits of a hexadecimal one.
theorem of_isExponentMark (h : IsNumeral n) (hl : n.getLast? = some c) (hc : isExponentMark c) :
    (c = 'e' ∨ c = 'E') ∧ ∃ x r, (x = 'x' ∨ x = 'X') ∧ n = '0' :: x :: r := by
  obtain @⟨b, start, mantissa, exponent, hs, hm, he⟩ := h
  have hlast : b.inMantissa c := by
    rw [List.getLast?_append_of_ne_nil _ (List.append_ne_nil_of_left_ne_nil hm.ne_nil _)] at hl
    exact he.inMantissa_of_getLast? hm hl
  have hmark : ¬ b.isMark c := fun hmark => by simp [Base.not_inMantissa_of_isMark hmark] at hlast
  have hc : (c = 'e' ∨ c = 'E') ∨ c = 'p' ∨ c = 'P' := by
    simpa [isExponentMark, or_assoc] using hc
  rcases Base.mem_starts_iff.mp hs with ⟨rfl, rfl⟩ | ⟨rfl, x, hx, rfl⟩
  case inl =>
    have hdigit : c.isDigit ∨ c = '.' := by simpa [Base.inMantissa, Base.isDigit] using hlast
    rcases hc with (rfl | rfl) | rfl | rfl <;> simp [Char.isDigit] at hdigit
  case inr =>
    refine ⟨hc.resolve_right fun hc => hmark ?_, x, mantissa ++ exponent, hx, rfl⟩
    simpa [Base.isMark] using hc

section Token

theorem ne_nil (h : IsNumeral n) : n ≠ [] := by
  obtain ⟨c, r, rfl, -⟩ := h.exists_cons
  exact List.cons_ne_nil c r

theorem bare_append (h : IsNumeral n) (y : List Char) : Bare (n ++ y) := by
  obtain ⟨c, r, rfl, hc, -⟩ := h.exists_cons
  constructor
  · by_contra hs
    have hs : isSpace c := by simpa using hs
    have hd : c.isDigit = false := eq_false_of_isSpace (by decide) hs
    rcases hc with hc | ⟨rfl, -⟩
    case inl => simp [hd] at hc
    case inr => exact absurd hs (by decide)
  · rw [List.cons_append, Ne, take_two_eq_dashes]
    rintro ⟨rfl, -⟩
    exact absurd hc (by simp [Char.isDigit])

theorem preamble_append (h : IsNumeral n) (y : List Char) : preamble (n ++ y) = ([], n ++ y) := by
  obtain ⟨c, r, rfl, hc, -⟩ := h.exists_cons
  refine preamble_cons ?_ ?_ (r ++ y)
  all_goals
    rintro rfl
    exact absurd hc (by simp [Char.isDigit])

-- A numeral is read to its end, and from there on whatever its last character lets go on.
theorem begins_append (h : IsNumeral n) (hl : n.getLast? = some last) (y : List Char) :
    Begins (n ++ y) .number (y.drop (numeralTail last y).length) := by
  have hbare := h.bare_append y
  obtain ⟨c, r, rfl, hc, htail⟩ := h.exists_cons
  have hlast : r.getLast?.getD c = last := by simpa [List.getLast?_cons] using hl
  have hstarts : c.isDigit ∨ c = '.' ∧ startsWithDigit (r ++ y) := by
    refine hc.imp_right fun ⟨hpoint, hd⟩ => ⟨hpoint, ?_⟩
    cases r with
    | nil => cases hd
    | cons d r => simpa [startsWithDigit] using hd
  have hquote : isQuote c = false := by
    by_contra hq
    rw [Bool.not_eq_false] at hq
    rcases isQuote_iff.mp hq with rfl | rfl <;> simp [Char.isDigit] at hc
  rw [List.cons_append] at hbare ⊢
  refine .of_bare hbare ?_ ?_ (tokenCloses_numeral hquote hstarts)
  · rw [token_numeral hquote hstarts]
  · rw [token_numeral hquote hstarts, numeralTail_append_of_eq htail, hlast, List.length_append,
      List.drop_length_add_append]

-- What is read beyond a numeral belongs to its token, and the rest is read as if it stood on a line
-- of its own.
theorem lex_append (h : IsNumeral n) (hl : n.getLast? = some last) {s rest : String}
    {tail : List Char} (ht : numeralTail last s.toList = tail)
    (hs : s.toList = tail ++ rest.toList) :
    lex (String.ofList n ++ s) = ⟨.number, 0, size (n ++ tail)⟩ ::
      (lex ("\n" ++ rest)).map (Token.shift (size (n ++ tail) - 1)) := by
  have hbegins := h.begins_append hl s.toList
  have hbare := h.bare_append s.toList
  have hpreamble := h.preamble_append s.toList
  have hsource : String.ofList n ++ s = String.ofList (n ++ tail) ++ rest :=
    String.toList_inj.mp (by simp [hs])
  rw [ht, hs, List.drop_left, ← List.append_assoc] at hbegins
  rw [hs, ← List.append_assoc] at hbare hpreamble
  rw [hsource]
  exact hbegins.lex_append hbare hpreamble (List.append_ne_nil_of_left_ne_nil h.ne_nil tail)

theorem numeralTail_eq_nil_iff (h : IsNumeral n) (hl : n.getLast? = some last)
    (hs : s.head?.all fun c => !isNumeralCharacter c) :
    numeralTail last s = [] ↔ ¬ TakesSign n s := by
  cases s with
  | nil => simp [numeralTail, TakesSign]
  | cons c s =>
    have hc : isNumeralCharacter c = false := by simpa using hs
    have hmark : isExponentMark last ↔ last = 'e' ∨ last = 'E' := by
      refine ⟨fun hmark => (h.of_isExponentMark hl hmark).1, ?_⟩
      rintro (rfl | rfl) <;> decide
    have htakes : TakesSign n (c :: s) ↔ isSign c ∧ isExponentMark last := by
      simp [TakesSign, hl, hmark, and_comm]
    rw [numeralTail, hc, Bool.false_or, htakes, ← Bool.and_eq_true, ite_eq_right_iff]
    simp

-- A numeral ends where it should, in front of anything that no numeral goes on with, unless a sign
-- is taken for that of an exponent.
theorem lex_append_eq_iff (h : IsNumeral n) {s : String}
    (hs : s.toList.head?.all fun c => !isNumeralCharacter c) :
    lex (String.ofList n ++ s) =
        ⟨.number, 0, size n⟩ :: (lex ("\n" ++ s)).map (Token.shift (size n - 1)) ↔
      ¬ TakesSign n s.toList := by
  obtain ⟨last, hl⟩ := Option.isSome_iff_exists.mp (List.getLast?_isSome.mpr h.ne_nil)
  rw [← h.numeralTail_eq_nil_iff hl hs]
  refine ⟨fun heq => ?_, fun htail => ?_⟩
  · by_contra hne
    have hrest : s.toList = numeralTail last s.toList ++
        (String.ofList (s.toList.drop (numeralTail last s.toList).length)).toList := by
      rw [String.toList_ofList, append_drop_of_isPrefix (numeralTail_isPrefix last s.toList)]
    rw [h.lex_append hl rfl hrest] at heq
    have hsize : size (n ++ numeralTail last s.toList) = size n :=
      congrArg Token.stop (List.cons.inj heq).1
    have := size_pos_of_ne_nil hne
    rw [size_append] at hsize
    omega
  · simpa using h.lex_append hl htail (List.nil_append s.toList).symm

theorem exists_of_takesSign (h : IsNumeral n) (ht : TakesSign n s) :
    ∃ x r, (x = 'x' ∨ x = 'X') ∧ n = '0' :: x :: r := by
  rcases ht.1 with hl | hl
  · exact (h.of_isExponentMark hl (by decide)).2
  · exact (h.of_isExponentMark hl (by decide)).2

end Token

end IsNumeral

end LuaBundle.Lua

import LuaBundle.Yaml.Style
import LuaBundle.Yaml.QuotedScalar
import Mathlib.Algebra.Group.Nat.Defs
import Mathlib.Tactic.SplitIfs

namespace LuaBundle.Yaml

variable {c : Char} {s w r done : List Char} {gap : Option Gap} {indent column : Nat}
  {inFlow : Bool}

section Characters

theorem eq_space_of_isBlank (h : Style.isPrintable c) (hb : isBlank c) : c = ' ' := by
  simp only [isBlank, Bool.or_eq_true, decide_eq_true_eq] at hb
  rcases hb with rfl | rfl
  · rfl
  · cases h

theorem isAllowed_of_isPrintable (h : Style.isPrintable c) : isAllowed c := by
  simp only [Style.isPrintable, isAllowed, Bool.or_eq_true, Bool.and_eq_true, decide_eq_true_eq]
    at h ⊢
  omega

-- What stands in a line of text: spaces and characters that are no gap.
theorem space_or_not_isGap (h : Style.isPrintable c) (hb : isBreak c = false) :
    c = ' ' ∨ isGap c = false := by
  cases hblank : isBlank c with
  | true => exact .inl (eq_space_of_isBlank h hblank)
  | false => exact .inr (by rw [isGap, hblank, hb]; rfl)

end Characters

section Gaps

-- Nothing was passed since the last character, or blanks only.
def Gap.OnLine (gap : Option Gap) : Prop :=
  gap.all (!·.isBreaks)

theorem onLine_none : Gap.OnLine none :=
  rfl

theorem onLine_addBlank (h : Gap.OnLine gap) : Gap.OnLine (Quoted.addBlank gap ' ') := by
  cases gap with
  | none => rfl
  | some g =>
    cases g with
    | blanks => rfl
    | breaks => cases h

theorem close_addBlank (h : Gap.OnLine gap) :
    Quoted.close (Quoted.addBlank gap ' ') done = ' ' :: Quoted.close gap done := by
  cases gap with
  | none => rfl
  | some g =>
    cases g with
    | blanks text => simp [Quoted.close, Quoted.addBlank, Gap.addBlank, Gap.text]
    | breaks => cases h

end Gaps

section Plain

theorem Plain.read_space :
    Plain.read inFlow indent gap column done (' ' :: r) =
      Plain.read inFlow indent (Quoted.addBlank gap ' ') (column + 1) done r := by
  rw [Plain.read]
  · rfl
  · simp

theorem Plain.read_line_feed :
    Plain.read inFlow indent gap column done ('\n' :: r) =
      Plain.read inFlow indent (Quoted.addBreak gap ['\n']) 0 done r := by
  rw [Plain.read]
  · rfl
  · simp

theorem Plain.read_word (hc : isGap c = false)
    (hgap : gap.all fun g => goesOn false indent column g (c :: r))
    (hstop : stopsAt false (c :: r) = false) :
    Plain.read false indent gap column done (c :: r) =
      Plain.read false indent none (column + 1) (c :: Quoted.close gap done) r := by
  obtain ⟨hblank, hbreak⟩ := Bool.or_eq_false_iff.mp hc
  have hstray : isStrayColon false (c :: r) = false := by
    unfold isStrayColon
    split <;> rfl
  have hgoes : (gap.any fun g => !goesOn false indent column g (c :: r)) = false := by
    cases gap with
    | none => rfl
    | some g => simpa using hgap
  have hreturn : ∀ r', c = '\r' → r = '\n' :: r' → False := by
    rintro r' rfl -
    cases hbreak
  rw [Plain.read]
  · simp [hblank, hbreak, hgoes, hstray, hstop, Quoted.close]
  · exact hreturn

-- A text of one line without what ends a plain scalar is read to its end.
theorem Plain.read_append (hw : ∀ c ∈ w, c = ' ' ∨ isGap c = false)
    (hi : Style.hasIndicator w = false) (hlast : w.getLast? ≠ some ' ')
    (hgap : Gap.OnLine gap) (hhash : gap.isSome → w.head? ≠ some '#') (hnil : w = [] → gap = none) :
    Plain.read false indent gap column done (w ++ r) =
      Plain.read false indent none (column + w.length) (w.reverse ++ Quoted.close gap done) r := by
  induction w generalizing gap column done with
  | nil =>
    obtain rfl := hnil rfl
    rfl
  | cons c w ih =>
    obtain ⟨hc, hw'⟩ := List.forall_mem_cons.mp hw
    rw [Style.hasIndicator, Bool.or_eq_false_iff, Bool.or_eq_false_iff] at hi
    obtain ⟨⟨hcolon, hhash'⟩, hi⟩ := hi
    have hlast' : w.getLast? ≠ some ' ' := by
      cases w with
      | nil => simp
      | cons => simpa using hlast
    have hlength : column + (c :: w).length = column + 1 + w.length := by
      rw [List.length_cons]
      omega
    rw [List.cons_append, hlength, List.reverse_cons, List.append_assoc, List.singleton_append]
    rcases hc with rfl | hc
    case inl =>
      have hhead : w.head? ≠ some '#' := by simpa [isGap, isBlank] using hhash'
      have hne : w = [] → Quoted.addBlank gap ' ' = none := by
        rintro rfl
        exact absurd rfl hlast
      rw [read_space, ih hw' hi hlast' (onLine_addBlank hgap) (fun _ => hhead) hne,
        close_addBlank hgap]
    case inr =>
      have hgoes : gap.all fun g => goesOn false indent column g (c :: (w ++ r)) := by
        cases gap with
        | none => rfl
        | some g =>
          have hg : g.isBreaks = false := by simpa [Gap.OnLine] using hgap
          have hc : c ≠ '#' := by simpa using hhash rfl
          simp [goesOn, hg, hc]
      have hstop : stopsAt false (c :: (w ++ r)) = false := by
        cases w with
        | nil =>
          have hc : c ≠ ':' := by simpa [atGap] using hcolon
          simp [stopsAt, hc]
        | cons d w => simpa [stopsAt, atGap] using hcolon
      rw [read_word hc hgoes hstop, ih hw' hi hlast' onLine_none (by simp) (fun _ => rfl)]
      rfl

-- A text that starts with a token, or is over.
def Begins (s : List Char) : Prop :=
  s.head?.all fun c => !isGap c && c ≠ '#' && c ≠ byteOrderMark

theorem Begins.isGap (h : Begins (c :: s)) : isGap c = false := by
  simp only [Begins, List.head?_cons, Option.all_some, Bool.and_eq_true] at h
  simpa using h.1.1

theorem Plain.read_pad {first more : List Char} {j : Nat} (hj : column + j < indent)
    (hr : Begins r) :
    Plain.read false indent (some (.breaks first more)) column done (pad j ++ r) =
      .ok ⟨done.reverse, true, r⟩ := by
  induction j generalizing column with
  | succ j ih =>
    rw [pad, List.replicate_succ, List.cons_append, read_space]
    exact ih (by omega)
  | zero =>
    rw [pad, List.replicate_zero, List.nil_append]
    cases r with
    | nil => rfl
    | cons c r =>
      obtain ⟨hblank, hbreak⟩ := Bool.or_eq_false_iff.mp hr.isGap
      have hreturn : ∀ r', c = '\r' → r = '\n' :: r' → False := by
        rintro r' rfl -
        cases hbreak
      have hcolumn : column < indent := by omega
      rw [Plain.read]
      · simp [hblank, hbreak, goesOn, Gap.isBreaks, hcolumn]
      · exact hreturn

-- A text of one line that can stand as a plain scalar.
structure IsPlain (s : List Char) : Prop where
  ne_nil : s ≠ []
  chars : ∀ c ∈ s, c = ' ' ∨ isGap c = false
  begins : Begins s
  last : s.getLast? ≠ some ' '
  starts : Style.startsAsIndicator s = false
  noIndicator : Style.hasIndicator s = false

theorem isBreak_of_space_or (h : c = ' ' ∨ isGap c = false) : isBreak c = false := by
  rcases h with rfl | h
  · rfl
  · exact (Bool.or_eq_false_iff.mp h).2

theorem IsPlain.line (hs : IsPlain s) : ∀ c ∈ s, isBreak c = false :=
  fun c hc => isBreak_of_space_or (hs.chars c hc)

-- A plain scalar takes the line break behind it along, and the indentation of the next line.
theorem readPlain_line {j : Nat} (hs : IsPlain s) (hj : j < indent) (hr : Begins r) :
    readPlain false indent (s ++ '\n' :: (pad j ++ r)) = .ok ⟨s, true, r⟩ := by
  rw [readPlain, Plain.read_append hs.chars hs.noIndicator hs.last onLine_none (by simp)
    (fun _ => rfl), Plain.read_line_feed, Quoted.addBreak, Option.getD_none, Gap.addBreak,
    Plain.read_pad (by omega) hr]
  simp [Quoted.close]

theorem readPlain_key (hs : IsPlain s) (hr : atGap r) :
    readPlain false indent (s ++ ':' :: r) = .ok ⟨s, false, ':' :: r⟩ := by
  have hstray : Plain.isStrayColon false (':' :: r) = false := by
    unfold Plain.isStrayColon
    split <;> rfl
  rw [readPlain, Plain.read_append hs.chars hs.noIndicator hs.last onLine_none (by simp)
    (fun _ => rfl), Plain.read]
  · simp [isBlank, isBreak, hstray, Plain.stopsAt, hr, Quoted.close]
  · simp

end Plain

section Quoted

namespace Quoted

-- A text as it stands between single quotes.
def doubled (s : List Char) : List Char :=
  s.flatMap fun c => if c = '\'' then ['\'', '\''] else [c]

theorem readSingle_space :
    readSingle gap false done (' ' :: r) = readSingle (addBlank gap ' ') false done r := by
  rw [readSingle]
  · rfl
  all_goals simp

theorem readSingle_word (hc : isGap c = false) (hq : c ≠ '\'') :
    readSingle gap false done (c :: r) = readSingle none false (c :: close gap done) r := by
  obtain ⟨hblank, hbreak⟩ := Bool.or_eq_false_iff.mp hc
  rw [readSingle]
  · simp [hblank, hbreak]
  · exact fun _ h => absurd h hq
  · exact hq
  · rintro r' rfl
    cases hbreak

theorem readSingle_doubled (hs : ∀ c ∈ s, c = ' ' ∨ isGap c = false) (hgap : Gap.OnLine gap)
    (hr : r.head? ≠ some '\'') :
    readSingle gap false done (doubled s ++ '\'' :: r) =
      .ok ⟨(close gap done).reverse ++ s, false, r⟩ := by
  induction s generalizing gap done with
  | nil =>
    rw [doubled, List.flatMap_nil, List.nil_append, readSingle]
    · simp
    · rintro r' rfl
      exact hr rfl
  | cons c s ih =>
    obtain ⟨hc, hs'⟩ := List.forall_mem_cons.mp hs
    rw [doubled, List.flatMap_cons, List.append_assoc, ← doubled]
    rcases hc with rfl | hc
    case inl =>
      rw [if_neg (by decide), List.singleton_append, readSingle_space, ih hs' (onLine_addBlank hgap),
        close_addBlank hgap]
      simp
    case inr =>
      by_cases hq : c = '\''
      case pos =>
        rw [hq, if_pos rfl, List.cons_append, List.cons_append, List.nil_append, readSingle,
          if_neg (by simp), ih hs' onLine_none]
        simp [close]
      case neg =>
        rw [if_neg hq, List.singleton_append, readSingle_word hc hq, ih hs' onLine_none]
        simp [close]

theorem readDouble_space :
    readDouble gap false done (' ' :: r) = readDouble (addBlank gap ' ') false done r := by
  rw [readDouble]
  · rfl
  all_goals simp

theorem readDouble_word (hc : isGap c = false) (hq : c ≠ '"') (hb : c ≠ '\\') :
    readDouble gap false done (c :: r) = readDouble none false (c :: close gap done) r := by
  obtain ⟨hblank, hbreak⟩ := Bool.or_eq_false_iff.mp hc
  have hreturn : ∀ r', c = '\r' → r = '\n' :: r' → False := by
    rintro r' rfl -
    cases hbreak
  rw [readDouble]
  · simp [hblank, hbreak, hb]
  · exact hq
  case x_6 => exact hreturn
  all_goals
    intros
    contradiction

-- An escape without digits.
theorem readDouble_short {d : Char} (h : escape? d = some c) (hbreak : isBreak d = false)
    (hx : d ≠ 'x') (hu : d ≠ 'u') (hU : d ≠ 'U') :
    readDouble gap false done ('\\' :: d :: r) =
      readDouble none false (c :: close gap done) r := by
  have hreturn : ∀ r', d = '\r' → r = '\n' :: r' → False := by
    rintro r' rfl -
    cases hbreak
  rw [readDouble]
  · simp [h, hbreak]
  · exact hreturn
  all_goals
    intros
    contradiction

theorem hexDigits_succ (w n : Nat) :
    hexDigits (w + 1) n = (Nat.digitChar (n / 16 ^ w % 16)).toUpper :: hexDigits w n := by
  simp [hexDigits, List.range_succ]

theorem hexDigit?_digitChar :
    ∀ d < 16, Lua.hexDigit? (Nat.digitChar d).toUpper = some d := by
  decide

theorem all_hexDigits (w n : Nat) : (hexDigits w n).all Lua.isHexDigit := by
  simp [hexDigits, Lua.isHexDigit, hexDigit?_digitChar, Nat.mod_lt]

theorem foldl_hexDigits (w n m : Nat) :
    (hexDigits w n).foldl (fun v d => v * 16 + (Lua.hexDigit? d).getD 0) m =
      m * 16 ^ w + n % 16 ^ w := by
  induction w generalizing m with
  | zero => simp [hexDigits, Nat.mod_one]
  | succ w ih =>
    have hdigit := hexDigit?_digitChar (n / 16 ^ w % 16) (Nat.mod_lt _ (by decide))
    rw [hexDigits_succ, List.foldl_cons, hdigit, Option.getD_some, ih, Nat.mod_pow_succ,
      Nat.pow_succ, Nat.add_mul, Nat.mul_assoc, Nat.mul_comm 16, Nat.mul_comm (n / 16 ^ w % 16)]
    omega

theorem digitsValue_hexDigits {w n : Nat} (h : n < 16 ^ w) :
    Lua.digitsValue 16 (hexDigits w n) = n := by
  rw [Lua.digitsValue, foldl_hexDigits, Nat.mod_eq_of_lt h]
  omega

theorem hexEscape?_hexDigits {w : Nat} (h : c.toNat < 16 ^ w) :
    hexEscape? (hexDigits w c.toNat) = some c := by
  have hvalid : c.toNat.isValidChar := c.valid
  simp only [hexEscape?, digitsValue_hexDigits h, all_hexDigits, hvalid, decide_true, Bool.and_self,
    if_true, Char.ofNat_toNat]

theorem readDouble_escape (c : Char) :
    readDouble gap false done (escape c ++ r) =
      readDouble none false (c :: close gap done) r := by
  have hvalid : c.toNat < 0x110000 := by
    have h : c.toNat.isValidChar := c.valid
    unfold Nat.isValidChar at h
    omega
  unfold escape
  split
  case h_15 =>
    split_ifs with h₂ h₄
    case pos =>
      have hread := hexEscape?_hexDigits (c := c) (w := 2) (by omega)
      obtain ⟨d₁, d₀, hd⟩ : ∃ d₁ d₀, hexDigits 2 c.toNat = [d₁, d₀] := ⟨_, _, rfl⟩
      rw [hd] at hread ⊢
      simp [readDouble, hread]
    case pos =>
      have hread := hexEscape?_hexDigits (c := c) (w := 4) (by omega)
      obtain ⟨d₃, d₂, d₁, d₀, hd⟩ : ∃ d₃ d₂ d₁ d₀, hexDigits 4 c.toNat = [d₃, d₂, d₁, d₀] :=
        ⟨_, _, _, _, rfl⟩
      rw [hd] at hread ⊢
      simp [readDouble, hread]
    case neg =>
      have hread := hexEscape?_hexDigits (c := c) (w := 8) (by omega)
      obtain ⟨d₇, d₆, d₅, d₄, d₃, d₂, d₁, d₀, hd⟩ : ∃ d₇ d₆ d₅ d₄ d₃ d₂ d₁ d₀,
          hexDigits 8 c.toNat = [d₇, d₆, d₅, d₄, d₃, d₂, d₁, d₀] :=
        ⟨_, _, _, _, _, _, _, _, rfl⟩
      rw [hd] at hread ⊢
      simp [readDouble, hread]
  all_goals exact readDouble_short rfl rfl (by decide) (by decide) (by decide)

-- A text as it stands between double quotes.
def escaped (s : List Char) : List Char :=
  s.flatMap fun c =>
    if !Style.isPrintable c || isBreak c || c = '"' || c = '\\' then escape c else [c]

theorem readDouble_escaped (hgap : Gap.OnLine gap) :
    readDouble gap false done (escaped s ++ '"' :: r) =
      .ok ⟨(close gap done).reverse ++ s, false, r⟩ := by
  induction s generalizing gap done with
  | nil =>
    rw [escaped, List.flatMap_nil, List.nil_append, readDouble]
    simp
  | cons c s ih =>
    rw [escaped, List.flatMap_cons, List.append_assoc, ← escaped]
    split_ifs with hescape
    case pos =>
      rw [readDouble_escape, ih onLine_none]
      simp [close]
    case neg =>
      simp only [Bool.or_eq_true, Bool.not_eq_true', decide_eq_true_eq, not_or,
        Bool.not_eq_false, Bool.not_eq_true] at hescape
      obtain ⟨⟨⟨hprint, hbreak⟩, hquote⟩, hback⟩ := hescape
      rw [List.singleton_append]
      rcases space_or_not_isGap hprint hbreak with rfl | hc
      case inl =>
        rw [readDouble_space, ih (onLine_addBlank hgap), close_addBlank hgap]
        simp
      case inr =>
        rw [readDouble_word hc hquote hback, ih onLine_none]
        simp [close]

end Quoted
end Quoted

section Written

-- How a text stands in one line: as itself, or between quotes behind which it is read again.
inductive Spelled (s : List Char) : Bool → List Char → Prop
  | plain (h : IsPlain s) : Spelled s true s
  | quoted {q : Char} {w : List Char} (hq : q = '\'' ∨ q = '"')
      (h : ∀ r, r.head? ≠ some '\'' → readQuoted (q = '\'') (w ++ q :: r) = .ok ⟨s, false, r⟩) :
      Spelled s false (q :: w ++ [q])

theorem Spelled.begins {isPlain : Bool} (h : Spelled s isPlain w) : Begins (w ++ r) := by
  cases h with
  | plain h =>
    obtain ⟨c, s, rfl⟩ := List.exists_cons_of_ne_nil h.ne_nil
    exact h.begins
  | quoted hq =>
    rcases hq with rfl | rfl
    all_goals rfl

theorem indented_of_line {isFresh : Bool} (hs : ∀ c ∈ s, isBreak c = false)
    (h : isFresh = false) : indented indent isFresh s = s := by
  induction s generalizing isFresh with
  | nil => rfl
  | cons c s ih =>
    obtain ⟨hc, hs⟩ := List.forall_mem_cons.mp hs
    simp [indented, hc, h, ih hs]

theorem quoteSingle_of_line (hs : ∀ c ∈ s, isBreak c = false) :
    quoteSingle indent s = '\'' :: Quoted.doubled s ++ ['\''] := by
  have hbody : ∀ c ∈ Quoted.doubled s, isBreak c = false := by
    intro c hc
    obtain ⟨d, hd, hc⟩ := List.mem_flatMap.mp hc
    split_ifs at hc with hq
    · have hc : c = '\'' := by simpa using hc
      exact hc ▸ rfl
    · exact List.mem_singleton.mp hc ▸ hs d hd
  have hlast : s.getLast?.any isBreak = false := by
    cases h : s.getLast? with
    | none => rfl
    | some c => exact hs c (List.mem_of_getLast? h)
  unfold quoteSingle
  simp [hlast, ← Quoted.doubled.eq_def, indented_of_line hbody]

theorem begins_of_line (hprint : ∀ c ∈ s, Style.isPrintable c)
    (hchars : ∀ c ∈ s, c = ' ' ∨ isGap c = false) (hfirst : s.head? ≠ some ' ')
    (hstart : Style.startsAsIndicator s = false) : Begins s := by
  cases s with
  | nil => rfl
  | cons c s =>
    have hgap : isGap c = false := by
      rcases hchars c List.mem_cons_self with rfl | hc
      · exact absurd rfl hfirst
      · exact hc
    have hhash : c ≠ '#' := by
      rintro rfl
      simp [Style.startsAsIndicator] at hstart
    have hmark : c ≠ byteOrderMark := by
      rintro rfl
      exact absurd (hprint _ List.mem_cons_self) (by decide)
    simp [Begins, hgap, hhash, hmark]

theorem isPlain_of_allowsPlain (hne : s ≠ []) (h : Style.allowsPlain s) : IsPlain s := by
  simp only [Style.allowsPlain, Bool.and_eq_true, List.all_eq_true, Bool.not_eq_true',
    decide_eq_true_eq] at h
  obtain ⟨⟨⟨⟨⟨hprint, hbreak⟩, hfirst⟩, hlast⟩, hstart⟩, hindicator⟩ := h
  have hline : ∀ c ∈ s, isBreak c = false := by simpa using hbreak
  have hchars := fun c hc => space_or_not_isGap (hprint c hc) (hline c hc)
  exact ⟨hne, hchars, begins_of_line hprint hchars hfirst hstart, hlast, hstart, hindicator⟩

theorem spelled_single (hs : ∀ c ∈ s, isBreak c = false) (hprint : ∀ c ∈ s, Style.isPrintable c) :
    Spelled s false ('\'' :: Quoted.doubled s ++ ['\'']) := by
  refine .quoted (.inl rfl) fun r hr => ?_
  rw [readQuoted, if_pos (by simp), Quoted.readSingle_doubled _ onLine_none hr]
  · rfl
  · exact fun c hc => space_or_not_isGap (hprint c hc) (hs c hc)

theorem spelled_double : Spelled s false (quoteDouble s) := by
  refine .quoted (.inr rfl) fun r _ => ?_
  rw [readQuoted, if_neg (by decide)]
  exact Quoted.readDouble_escaped onLine_none

theorem Style.of_plain {t : String} (h : Style.of t = .plain) :
    isAmbiguous t = false ∧ allowsPlain t.toList := by
  simp only [Style.of] at h
  split_ifs at h with _ _ hplain
  simpa using hplain

theorem Style.of_singleQuoted {t : String} (h : Style.of t = .singleQuoted) :
    allowsSingleQuoted t.toList := by
  simp only [Style.of] at h
  split_ifs at h
  assumption

theorem Style.of_literal {t : String} (h : Style.of t = .literal) : '\n' ∈ t.toList := by
  simp only [Style.of] at h
  split_ifs at h with hbreak
  exact List.contains_iff_mem.mp hbreak

theorem spelled_writeScalar (indent : Nat) {t : String} (ht : ∀ c ∈ t.toList, isBreak c = false) :
    ∃ w, writeScalar indent t = w ++ ['\n'] ∧ Spelled t.toList (Style.of t = .plain) w := by
  unfold writeScalar
  cases hstyle : Style.of t with
  | literal => exact absurd (ht _ (Style.of_literal hstyle)) (by decide)
  | plain =>
    obtain ⟨hclear, hplain⟩ := Style.of_plain hstyle
    have hne : t.toList ≠ [] := by
      intro hnil
      simp [isAmbiguous, hnil] at hclear
    exact ⟨_, rfl, .plain (isPlain_of_allowsPlain hne hplain)⟩
  | singleQuoted =>
    have hallows := Style.of_singleQuoted hstyle
    simp only [Style.allowsSingleQuoted, Bool.and_eq_true, List.all_eq_true] at hallows
    exact ⟨_, rfl, quoteSingle_of_line ht ▸ spelled_single ht hallows.1.1⟩
  | doubleQuoted => exact ⟨_, rfl, spelled_double⟩

theorem isAllowed_hexDigits (w n : Nat) : ∀ d ∈ hexDigits w n, isAllowed d := by
  have hdigit : ∀ d < 16, isAllowed (Nat.digitChar d).toUpper := by decide
  intro d hd
  obtain ⟨k, -, rfl⟩ := List.mem_map.mp hd
  exact hdigit _ (Nat.mod_lt _ (by decide))

theorem isAllowed_escape : ∀ d ∈ escape c, isAllowed d := by
  intro d hd
  unfold escape at hd
  rcases List.mem_cons.mp hd with rfl | hd
  · rfl
  split at hd
  case h_15 =>
    split_ifs at hd
    all_goals
      rcases List.mem_cons.mp hd with rfl | hd
      · rfl
      · exact isAllowed_hexDigits _ _ d hd
  all_goals exact List.mem_singleton.mp hd ▸ rfl

theorem isAllowed_doubled (hs : ∀ c ∈ s, isAllowed c) : ∀ c ∈ Quoted.doubled s, isAllowed c := by
  intro c hc
  obtain ⟨d, hd, hc⟩ := List.mem_flatMap.mp hc
  split_ifs at hc with hq
  · have hc : c = '\'' := by simpa using hc
    exact hc ▸ rfl
  · exact List.mem_singleton.mp hc ▸ hs d hd

theorem isAllowed_escaped : ∀ c ∈ Quoted.escaped s, isAllowed c := by
  intro c hc
  obtain ⟨d, -, hc⟩ := List.mem_flatMap.mp hc
  split_ifs at hc with hescape
  · exact isAllowed_escape c hc
  · obtain rfl := List.mem_singleton.mp hc
    simp only [Bool.or_eq_true, Bool.not_eq_true', not_or, Bool.not_eq_false] at hescape
    exact isAllowed_of_isPrintable hescape.1.1.1

-- A document may hold whatever a text is written as.
theorem isAllowed_writeScalar {t : String} (ht : ∀ c ∈ t.toList, isBreak c = false) :
    ∀ c ∈ writeScalar indent t, isAllowed c := by
  have hend : isAllowed '\n' ∧ isAllowed '\'' ∧ isAllowed '"' := by decide
  obtain ⟨hline, hsingle, hdouble⟩ := hend
  cases hstyle : Style.of t with
  | literal => exact absurd (ht _ (Style.of_literal hstyle)) (by decide)
  | plain =>
    have hplain := (Style.of_plain hstyle).2
    simp only [Style.allowsPlain, Bool.and_eq_true, List.all_eq_true] at hplain
    have hs := fun c hc => isAllowed_of_isPrintable (hplain.1.1.1.1.1 c hc)
    simpa [writeScalar, hstyle, or_imp, forall_and] using ⟨hs, hline⟩
  | singleQuoted =>
    have hallows := Style.of_singleQuoted hstyle
    simp only [Style.allowsSingleQuoted, Bool.and_eq_true, List.all_eq_true] at hallows
    have hs := isAllowed_doubled fun c hc => isAllowed_of_isPrintable (hallows.1.1 c hc)
    simpa [writeScalar, hstyle, quoteSingle_of_line ht, or_imp, forall_and] using
      ⟨hsingle, hs, hsingle, hline⟩
  | doubleQuoted =>
    have hs := isAllowed_escaped (s := t.toList)
    have hquote : quoteDouble t.toList = '"' :: Quoted.escaped t.toList ++ ['"'] := rfl
    simpa [writeScalar, hstyle, hquote, or_imp, forall_and] using ⟨hdouble, hs, hdouble, hline⟩

end Written
end LuaBundle.Yaml

import LuaBundle.Lua.Cursor
import LuaBundle.Proofs.Lua.Boundary
import LuaBundle.Proofs.Text.Utf8

namespace LuaBundle.Lua.Cursor

open Text

section Bytes

variable {b : UInt8} {c : Char} {p : Char → Bool} {s t : List Char}

theorem toNat_char (b : UInt8) : (char b).toNat = b.toNat := by
  have hb := b.toNat_lt
  rw [char, Char.ofNat, dif_pos (.inl (by omega))]
  rfl

theorem char_injective : Function.Injective char := fun a b h => by
  rw [← UInt8.toNat_inj, ← toNat_char, ← toNat_char, h]

-- A byte of a character is read as that character in ASCII, and as one beyond ASCII elsewhere.
theorem char_of_mem (h : b ∈ String.utf8EncodeChar c) :
    (char b = c ∧ c.toNat < 0x80) ∨ (0x80 ≤ (char b).toNat ∧ 0x80 ≤ c.toNat) := by
  by_cases hc : c.toNat < 0x80
  case pos =>
    rw [Utf8.utf8EncodeChar_of_lt hc, List.mem_singleton] at h
    refine .inl ⟨Char.toNat_inj.mp ?_, hc⟩
    rw [toNat_char, h, Utf8.toNat_ofNat (by omega)]
  case neg =>
    have hb := (Utf8.eq_or_le_of_mem_utf8EncodeChar h).resolve_left fun hb => hc hb.1
    refine .inr ⟨?_, Nat.not_lt.mp hc⟩
    rw [toNat_char]
    exact UInt8.le_iff_toNat_le.mp hb

-- A class of characters that takes in all characters beyond ASCII or none.
def Blind (p : Char → Bool) : Prop :=
  ∀ c d : Char, 0x80 ≤ c.toNat → 0x80 ≤ d.toNat → p c = p d

theorem Blind.of_false (h : ∀ c : Char, 0x80 ≤ c.toNat → p c = false) : Blind p :=
  fun c d hc hd => (h c hc).trans (h d hd).symm

theorem Blind.char_eq (hp : Blind p) (h : b ∈ String.utf8EncodeChar c) : p (char b) = p c := by
  rcases char_of_mem h with ⟨rfl, -⟩ | ⟨hb, hc⟩
  case inl => rfl
  case inr => exact hp _ _ hb hc

theorem Blind.takeWhile_encode (hp : Blind p) (s : List Char) :
    (encode s).takeWhile (fun b => p (char b)) = encode (s.takeWhile p) := by
  induction s with
  | nil => rfl
  | cons c s ih =>
    have hall {value : Bool} (hc : p c = value) :
        ∀ b ∈ String.utf8EncodeChar c, p (char b) = value :=
      fun b hb => (hp.char_eq hb).trans hc
    by_cases hc : p c
    case pos =>
      rw [encode_cons, List.takeWhile_append_of_pos (hall hc), ih, List.takeWhile_cons_of_pos hc,
        encode_cons]
    case neg =>
      rw [Bool.not_eq_true] at hc
      obtain ⟨b, tail, he⟩ := List.exists_cons_of_ne_nil (Utf8.utf8EncodeChar_ne_nil c)
      have hb := hall hc b (he ▸ List.mem_cons_self)
      rw [encode_cons, he, List.cons_append, List.takeWhile_cons_of_neg (by simp [hb]),
        List.takeWhile_cons_of_neg (by simp [hc]), encode_nil]

theorem Blind.run_encode (hp : Blind p) (s : List Char) :
    run p (encode s) = size (s.takeWhile p) := by
  rw [run, hp.takeWhile_encode, length_encode]

-- What a text in UTF-8 begins with is told by its bytes.
theorem encode_prefix_iff : encode t <+: encode s ↔ t <+: s := by
  constructor
  case mp =>
    intro h
    induction t generalizing s with
    | nil => exact List.nil_prefix
    | cons c t ih =>
      obtain ⟨rest, hrest⟩ := h
      obtain ⟨first, tail, hc, hnext⟩ := Utf8.next_utf8EncodeChar c
      cases s with
      | nil => simp [encode_cons, hc] at hrest
      | cons d s =>
        obtain ⟨first', tail', hd, hnext'⟩ := Utf8.next_utf8EncodeChar d
        rw [encode_cons, encode_cons, hc, hd] at hrest
        rw [List.cons_append, List.cons_append, List.cons_append] at hrest
        obtain ⟨rfl, hbytes⟩ := List.cons.inj hrest
        have hread := hnext (encode t ++ rest)
        rw [← List.append_assoc, hbytes] at hread
        replace hread := (hnext' _).symm.trans hread
        obtain ⟨hcd, hbytes⟩ := Prod.mk.inj hread
        obtain rfl := Option.some.inj hcd
        exact List.prefix_cons_iff.mpr (.inr ⟨_, rfl, ih ⟨rest, hbytes.symm⟩⟩)
  case mpr =>
    rintro ⟨u, rfl⟩
    exact ⟨encode u, (encode_append t u).symm⟩

theorem startsWith_encode : startsWith t (encode s) ↔ t <+: s := by
  rw [startsWith, List.isPrefixOf_iff_prefix, encode_prefix_iff]

theorem encode_cons_of_lt (h : c.toNat < 0x80) (s : List Char) :
    ∃ b, encode (c :: s) = b :: encode s ∧ char b = c := by
  refine ⟨UInt8.ofNat c.toNat, ?_, ?_⟩
  · rw [encode_cons, Utf8.utf8EncodeChar_of_lt h]
    rfl
  · refine Char.toNat_inj.mp ?_
    rw [toNat_char, Utf8.toNat_ofNat (by omega)]

-- Only the first byte of a character can lie in ASCII.
theorem exists_encode_cons (c : Char) (s : List Char) :
    ∃ first tail, encode (c :: s) = first :: (tail ++ encode s) ∧
      c.utf8Size = tail.length + 1 ∧ first ∈ String.utf8EncodeChar c ∧ ∀ b ∈ tail, 0x80 ≤ b := by
  obtain ⟨first, tail, he⟩ := List.exists_cons_of_ne_nil (Utf8.utf8EncodeChar_ne_nil c)
  refine ⟨first, tail, by rw [encode_cons, he]; rfl, ?_, he ▸ List.mem_cons_self, fun b hb => ?_⟩
  · rw [← String.length_utf8EncodeChar, he, List.length_cons]
  · have hmem : b ∈ String.utf8EncodeChar c := he ▸ .tail _ hb
    refine (Utf8.eq_or_le_of_mem_utf8EncodeChar hmem).resolve_left fun ⟨hc, _⟩ => ?_
    rw [Utf8.utf8EncodeChar_of_lt hc] at he
    obtain ⟨-, rfl⟩ := List.cons.inj he
    cases hb

theorem head?_any_encode {p : Char → Bool} (hp : Blind p) (s : List Char) :
    ((encode s).head?.any fun b => p (char b)) = s.head?.any p := by
  cases s with
  | nil => rfl
  | cons c s =>
    obtain ⟨first, tail, he, -, hfirst, -⟩ := exists_encode_cons c s
    rw [he, List.head?_cons, List.head?_cons, Option.any_some, Option.any_some, hp.char_eq hfirst]

theorem utf8Size_of_lt (h : c.toNat < 0x80) : c.utf8Size = 1 := by
  rw [← String.length_utf8EncodeChar, Utf8.utf8EncodeChar_of_lt h]
  rfl

theorem size_cons_of_lt (hc : c.toNat < 0x80) (s : List Char) : size (c :: s) = 1 + size s := by
  rw [size_cons, utf8Size_of_lt hc]

theorem size_eq_length (h : ∀ c ∈ s, c.toNat < 0x80) : size s = s.length := by
  induction s with
  | nil => rfl
  | cons c s ih =>
    rw [size_cons, utf8Size_of_lt (h c List.mem_cons_self), ih fun c hc => h c (.tail _ hc),
      List.length_cons, Nat.add_comm]

theorem run_cons (p : Char → Bool) (b : UInt8) (bytes : List UInt8) :
    run p (b :: bytes) = if p (char b) then 1 + run p bytes else 0 := by
  rw [run, List.takeWhile_cons]
  split <;> simp [run, Nat.add_comm]

-- Where a class lies in ASCII, so many bytes are so many characters.
theorem run_take (hp : ∀ c : Char, p c → c.toNat < 0x80) (n : Nat) (s : List Char) :
    run p ((encode s).take n) = ((s.take n).takeWhile p).length := by
  induction n generalizing s with
  | zero => rfl
  | succ n ih =>
    cases s with
    | nil => rfl
    | cons c s =>
      by_cases hc : c.toNat < 0x80
      case pos =>
        obtain ⟨b, he, rfl⟩ := encode_cons_of_lt hc s
        rw [he, List.take_succ_cons, List.take_succ_cons, run_cons, List.takeWhile_cons, ih]
        split <;> simp [Nat.add_comm]
      case neg =>
        obtain ⟨b, tail, he, -, hb, -⟩ := exists_encode_cons c s
        have hbeyond := (char_of_mem hb).resolve_left fun h => hc h.2
        have hnot {d : Char} (hd : 0x80 ≤ d.toNat) : ¬ p d := fun h => by
          have := hp d h
          omega
        rw [he, List.take_succ_cons, List.take_succ_cons, run_cons, if_neg (hnot hbeyond.1),
          List.takeWhile_cons_of_neg (hnot hbeyond.2)]
        rfl

theorem map_char_encode (h : ∀ c ∈ s, c.toNat < 0x80) : (encode s).map char = s := by
  induction s with
  | nil => rfl
  | cons c s ih =>
    obtain ⟨b, he, hb⟩ := encode_cons_of_lt (h c List.mem_cons_self) s
    rw [he, List.map_cons, hb, ih fun c hc => h c (.tail _ hc)]

theorem map_char_take (ht : t <+: s) (h : ∀ c ∈ t, c.toNat < 0x80) :
    ((encode s).take t.length).map char = t := by
  obtain ⟨u, rfl⟩ := ht
  rw [← size_eq_length h, take_encode rfl, map_char_encode h]

end Bytes

section Classes

variable {c : Char}

theorem lt_of_isDigit (h : c.isDigit) : c.toNat < 0x80 :=
  Nat.lt_of_le_of_lt (Char.isDigit_iff_toNat.mp h).2 (by decide)

theorem lt_of_isHexDigit (h : isHexDigit c) : c.toNat < 0x80 := by
  rw [isHexDigit, hexDigit?] at h
  split at h
  case isTrue hd => exact lt_of_isDigit hd
  split at h
  case isTrue hl => exact Nat.lt_of_le_of_lt (UInt32.le_iff_toNat_le.mp hl.2) (by decide)
  split at h
  case isTrue hu => exact Nat.lt_of_le_of_lt (UInt32.le_iff_toNat_le.mp hu.2) (by decide)
  case isFalse => cases h

theorem lt_of_isSpace (h : isSpace c) : c.toNat < 0x80 := by
  have hmem : c ∈ [' ', '\t', '\n', '\x0b', '\x0c', '\r'] := by
    simpa [isSpace, or_assoc] using h
  simp only [List.mem_cons, List.not_mem_nil, or_false] at hmem
  rcases hmem with rfl | rfl | rfl | rfl | rfl | rfl <;> decide

theorem lt_of_isNumeralCharacter (h : isNumeralCharacter c) : c.toNat < 0x80 := by
  simp only [isNumeralCharacter, Char.isAlphanum, Bool.or_eq_true, isAlpha_iff_toNat,
    decide_eq_true_eq] at h
  rcases h with ((h | h) | rfl) | rfl
  case inl.inl.inl => omega
  case inl.inl.inr => exact lt_of_isDigit h
  all_goals decide

theorem lt_of_isQuote (h : isQuote c) : c.toNat < 0x80 := by
  rcases isQuote_iff.mp h with rfl | rfl <;> decide

section Beyond

variable (hc : 0x80 ≤ c.toNat)
include hc

theorem ne_of_beyond {d : Char} (hd : d.toNat < 0x80) : c ≠ d := by
  rintro rfl
  omega

theorem letterEscape?_of_beyond : letterEscape? c = none := by
  unfold letterEscape?
  split
  case h_8 => rfl
  all_goals exact absurd hc (by decide)

theorem isLineBreak_of_beyond : isLineBreak c = false := by
  have hne {d : Char} (hd : d.toNat < 0x80) := ne_of_beyond hc hd
  simp [isLineBreak, hne (d := '\n') (by decide), hne (d := '\r') (by decide)]

theorem isDigit_of_beyond : c.isDigit = false :=
  Bool.eq_false_iff.mpr fun h => absurd (lt_of_isDigit h) (Nat.not_lt.mpr hc)

theorem isNameStart_of_beyond : isNameStart c := by
  simp [isNameStart, hc]

end Beyond

theorem lt_of_isLineBreak (h : isLineBreak c) : c.toNat < 0x80 := by
  by_contra hc
  simp [isLineBreak_of_beyond (Nat.not_lt.mp hc)] at h

theorem blind_ne {d : Char} (hd : d.toNat < 0x80) : Blind (· ≠ d) := fun c c' hc hc' => by
  have hne {c : Char} (hc : 0x80 ≤ c.toNat) : c ≠ d := by
    rintro rfl
    omega
  simp [hne hc, hne hc']

theorem blind_eq {d : Char} (hd : d.toNat < 0x80) : Blind (· = d) := .of_false fun c hc => by
  simp only [decide_eq_false_iff_not]
  rintro rfl
  omega

theorem blind_isSpace : Blind isSpace := .of_false fun _ hc =>
  Bool.eq_false_iff.mpr fun h => absurd (lt_of_isSpace h) (Nat.not_lt.mpr hc)

theorem blind_isHexDigit : Blind isHexDigit := .of_false fun _ hc =>
  Bool.eq_false_iff.mpr fun h => absurd (lt_of_isHexDigit h) (Nat.not_lt.mpr hc)

theorem blind_isQuote : Blind isQuote := .of_false fun _ hc =>
  Bool.eq_false_iff.mpr fun h => absurd (lt_of_isQuote h) (Nat.not_lt.mpr hc)

theorem blind_isDigit : Blind Char.isDigit := .of_false fun _ hc => isDigit_of_beyond hc

theorem blind_isNameStart : Blind isNameStart := fun _ _ hc hd =>
  (isNameStart_of_beyond hc).trans (isNameStart_of_beyond hd).symm

theorem blind_isNameCharacter : Blind isNameCharacter := fun _ _ hc hd => by
  simp [isNameCharacter, isNameStart_of_beyond hc, isNameStart_of_beyond hd]

end Classes

end LuaBundle.Lua.Cursor

import Mathlib.Data.List.Induction
import LuaBundle.Text.Size
import LuaBundle.Text.Utf8

namespace LuaBundle.Text

-- The byte that ends a line. No other character has it among its bytes.
abbrev lineFeed : UInt8 :=
  10

namespace Utf8

-- Bytes that lie in their ranges, one for each.
def Fits (ranges : List (UInt8 × UInt8)) (tail : List UInt8) : Prop :=
  tail.length = ranges.length ∧ ∀ bytes, fitting ranges (tail ++ bytes) = tail

theorem Fits.nil : Fits [] [] :=
  ⟨rfl, fun _ => by simp [fitting]⟩

theorem Fits.cons {ranges : List (UInt8 × UInt8)} {tail : List UInt8} {low high b : UInt8}
    (hl : low ≤ b) (hh : b ≤ high) (h : Fits ranges tail) :
    Fits ((low, high) :: ranges) (b :: tail) := by
  refine ⟨by simp [h.1], fun bytes => ?_⟩
  simp [fitting, hl, hh, h.2 bytes]

theorem next_of_fits {first : UInt8} {ranges : List (UInt8 × UInt8)} {tail : List UInt8} {c : Char}
    (ht : tails first = some ranges) (hf : Fits ranges tail) (hc : codePoint first tail = c.toNat)
    (bytes : List UInt8) : next first (tail ++ bytes) = (some c, bytes) := by
  simp [next, ht, hf.2 bytes, hf.1, hc]

variable {n : Nat}

theorem toNat_ofNat (h : n < 256) : (UInt8.ofNat n).toNat = n :=
  UInt8.toNat_ofNat_of_lt' h

theorem le_ofNat {low : UInt8} (h : n < 256) (hl : low.toNat ≤ n) : low ≤ UInt8.ofNat n := by
  rwa [UInt8.le_iff_toNat_le, toNat_ofNat h]

theorem ofNat_le {high : UInt8} (h : n < 256) (hh : n ≤ high.toNat) : UInt8.ofNat n ≤ high := by
  rwa [UInt8.le_iff_toNat_le, toNat_ofNat h]

-- The ranges after a first byte, told by its number.
theorem tails_eq (b : UInt8) :
    tails b =
      if b.toNat < 0x80 then some []
      else if b.toNat < 0xC2 then none
      else if b.toNat < 0xE0 then some [(0x80, 0xBF)]
      else if b.toNat = 0xE0 then some [(0xA0, 0xBF), (0x80, 0xBF)]
      else if b.toNat = 0xED then some [(0x80, 0x9F), (0x80, 0xBF)]
      else if b.toNat < 0xF0 then some [(0x80, 0xBF), (0x80, 0xBF)]
      else if b.toNat = 0xF0 then some [(0x90, 0xBF), (0x80, 0xBF), (0x80, 0xBF)]
      else if b.toNat < 0xF4 then some [(0x80, 0xBF), (0x80, 0xBF), (0x80, 0xBF)]
      else if b.toNat = 0xF4 then some [(0x80, 0x8F), (0x80, 0xBF), (0x80, 0xBF)]
      else none := by
  simp only [tails, UInt8.lt_iff_toNat_lt, ← UInt8.toNat_inj]
  rfl

theorem Fits.two {low high : UInt8} {b c : Nat} (hb : b < 256) (hl : low.toNat ≤ b)
    (hh : b ≤ high.toNat) :
    Fits [(low, high), (0x80, 0xBF)] [UInt8.ofNat b, UInt8.ofNat (c % 0x40 + 0x80)] :=
  .cons (le_ofNat hb hl) (ofNat_le hb hh) <|
    .cons (le_ofNat (by omega) (by simp)) (ofNat_le (by omega) (by simp; omega)) .nil

theorem Fits.three {low high : UInt8} {b c d : Nat} (hb : b < 256) (hl : low.toNat ≤ b)
    (hh : b ≤ high.toNat) :
    Fits [(low, high), (0x80, 0xBF), (0x80, 0xBF)]
      [UInt8.ofNat b, UInt8.ofNat (c % 0x40 + 0x80), UInt8.ofNat (d % 0x40 + 0x80)] :=
  .cons (le_ofNat hb hl) (ofNat_le hb hh) <|
    .cons (le_ofNat (by omega) (by simp)) (ofNat_le (by omega) (by simp; omega)) <|
    .cons (le_ofNat (by omega) (by simp)) (ofNat_le (by omega) (by simp; omega)) .nil

section Lengths

variable {c : Char} (bytes : List UInt8)

theorem next_one (hn : c.toNat = n) (h : n < 0x80) :
    next (UInt8.ofNat n) ([] ++ bytes) = (some c, bytes) := by
  refine next_of_fits ?_ .nil ?_ bytes
  · rw [tails_eq, toNat_ofNat (by omega), if_pos (by omega)]
  · simp [codePoint, hn]; omega

theorem next_two (hn : c.toNat = n) (hl : 0x80 ≤ n) (hh : n < 0x800) :
    next (UInt8.ofNat (n / 64 % 0x20 + 0xc0)) ([UInt8.ofNat (n % 0x40 + 0x80)] ++ bytes) =
      (some c, bytes) := by
  have hf : Fits [(0x80, 0xBF)] [UInt8.ofNat (n % 0x40 + 0x80)] :=
    .cons (le_ofNat (by omega) (by simp)) (ofNat_le (by omega) (by simp; omega)) .nil
  refine next_of_fits ?_ hf ?_ bytes
  · rw [tails_eq, toNat_ofNat (by omega), if_neg (by omega), if_neg (by omega), if_pos (by omega)]
  · simp [codePoint, hn]; omega

-- The second byte is bound after 0xE0, which shorter forms would start with, and after 0xED, where
-- surrogates would lie.
theorem next_three (hn : c.toNat = n) (hv : n < 0xD800 ∨ 0xDFFF < n) (hl : 0x800 ≤ n)
    (hh : n < 0x10000) :
    next (UInt8.ofNat (n / 4096 % 0x10 + 0xe0))
        ([UInt8.ofNat (n / 64 % 0x40 + 0x80), UInt8.ofNat (n % 0x40 + 0x80)] ++ bytes) =
      (some c, bytes) := by
  have hb : n / 64 % 0x40 + 0x80 < 256 := by omega
  have hc : codePoint (UInt8.ofNat (n / 4096 % 0x10 + 0xe0))
      [UInt8.ofNat (n / 64 % 0x40 + 0x80), UInt8.ofNat (n % 0x40 + 0x80)] = c.toNat := by
    simp [codePoint, hn]; omega
  have ht := tails_eq (UInt8.ofNat (n / 4096 % 0x10 + 0xe0))
  rw [toNat_ofNat (by omega), if_neg (by omega), if_neg (by omega), if_neg (by omega)] at ht
  by_cases h₁ : n < 0x1000
  · rw [if_pos (by omega)] at ht
    exact next_of_fits ht (.two hb (by simp; omega) (by simp; omega)) hc bytes
  rw [if_neg (by omega)] at ht
  by_cases h₂ : n / 4096 = 0xD
  · rw [if_pos (by omega)] at ht
    exact next_of_fits ht (.two hb (by simp) (by simp; omega)) hc bytes
  · rw [if_neg (by omega), if_pos (by omega)] at ht
    exact next_of_fits ht (.two hb (by simp) (by simp; omega)) hc bytes

-- After 0xF0 shorter forms and after 0xF4 numbers that are no code points are left out.
theorem next_four (hn : c.toNat = n) (hl : 0x10000 ≤ n) (hh : n < 0x110000) :
    next (UInt8.ofNat (n / 262144 % 0x08 + 0xf0))
        ([UInt8.ofNat (n / 4096 % 0x40 + 0x80), UInt8.ofNat (n / 64 % 0x40 + 0x80),
          UInt8.ofNat (n % 0x40 + 0x80)] ++ bytes) =
      (some c, bytes) := by
  have hb : n / 4096 % 0x40 + 0x80 < 256 := by omega
  have hc : codePoint (UInt8.ofNat (n / 262144 % 0x08 + 0xf0))
      [UInt8.ofNat (n / 4096 % 0x40 + 0x80), UInt8.ofNat (n / 64 % 0x40 + 0x80),
        UInt8.ofNat (n % 0x40 + 0x80)] = c.toNat := by
    simp [codePoint, hn]; omega
  have ht := tails_eq (UInt8.ofNat (n / 262144 % 0x08 + 0xf0))
  rw [toNat_ofNat (by omega), if_neg (by omega), if_neg (by omega), if_neg (by omega),
    if_neg (by omega), if_neg (by omega), if_neg (by omega)] at ht
  by_cases h₁ : n < 0x40000
  · rw [if_pos (by omega)] at ht
    exact next_of_fits ht (.three hb (by simp; omega) (by simp; omega)) hc bytes
  rw [if_neg (by omega)] at ht
  by_cases h₂ : n < 0x100000
  · rw [if_pos (by omega)] at ht
    exact next_of_fits ht (.three hb (by simp) (by simp; omega)) hc bytes
  · rw [if_neg (by omega), if_pos (by omega)] at ht
    exact next_of_fits ht (.three hb (by simp) (by simp; omega)) hc bytes

end Lengths

theorem next_utf8EncodeChar (c : Char) :
    ∃ first tail, String.utf8EncodeChar c = first :: tail ∧
      ∀ bytes, next first (tail ++ bytes) = (some c, bytes) := by
  have hv : c.toNat < 0xD800 ∨ (0xDFFF < c.toNat ∧ c.toNat < 0x110000) := c.valid
  have he : c.val.toNat = c.toNat := rfl
  unfold String.utf8EncodeChar
  rw [he]
  dsimp only
  split
  case isTrue h => exact ⟨_, _, rfl, fun bytes => next_one bytes rfl (by omega)⟩
  split
  case isTrue h₁ h₂ => exact ⟨_, _, rfl, fun bytes => next_two bytes rfl (by omega) (by omega)⟩
  split
  case isTrue h₁ h₂ h₃ =>
    exact ⟨_, _, rfl, fun bytes => next_three bytes rfl (by omega) (by omega) (by omega)⟩
  case isFalse h₁ h₂ h₃ =>
    exact ⟨_, _, rfl, fun bytes => next_four bytes rfl (by omega) (by omega)⟩

theorem utf8EncodeChar_ne_nil (c : Char) : String.utf8EncodeChar c ≠ [] := by
  intro h
  have := c.utf8Size_pos
  rw [← String.length_utf8EncodeChar, h] at this
  exact absurd this (by decide)

theorem utf8EncodeChar_of_lt {c : Char} (h : c.toNat < 0x80) :
    String.utf8EncodeChar c = [UInt8.ofNat c.toNat] := by
  rw [String.utf8EncodeChar.eq_1, if_pos (by show c.toNat ≤ 127; omega)]
  rfl

-- A byte of a character is the character itself or lies beyond ASCII.
theorem eq_or_le_of_mem_utf8EncodeChar {c : Char} {b : UInt8} (h : b ∈ String.utf8EncodeChar c) :
    (c.toNat < 0x80 ∧ b = UInt8.ofNat c.toNat) ∨ 0x80 ≤ b := by
  have he : c.val.toNat = c.toNat := rfl
  unfold String.utf8EncodeChar at h
  rw [he] at h
  generalize c.toNat = n at h
  have hhigh {m k : Nat} (hk : 0x80 ≤ k) (hm : m + k < 256) : 0x80 ≤ UInt8.ofNat (m + k) :=
    le_ofNat hm (by simp; omega)
  dsimp only at h
  split at h
  case isTrue hn => exact .inl ⟨by omega, by simpa using h⟩
  case isFalse =>
    right
    split at h
    · simp only [List.mem_cons, List.not_mem_nil, or_false] at h
      rcases h with rfl | rfl <;> exact hhigh (by decide) (by omega)
    · split at h
      · simp only [List.mem_cons, List.not_mem_nil, or_false] at h
        rcases h with rfl | rfl | rfl <;> exact hhigh (by decide) (by omega)
      · simp only [List.mem_cons, List.not_mem_nil, or_false] at h
        rcases h with rfl | rfl | rfl | rfl <;> exact hhigh (by decide) (by omega)

-- The byte of a character of ASCII is in no other character.
theorem mem_utf8EncodeChar_iff {c d : Char} (hd : d.toNat < 0x80) :
    UInt8.ofNat d.toNat ∈ String.utf8EncodeChar c ↔ c = d := by
  constructor
  case mp =>
    intro h
    rcases eq_or_le_of_mem_utf8EncodeChar h with ⟨hc, hb⟩ | hb
    case inl =>
      have hn := congrArg UInt8.toNat hb
      rw [toNat_ofNat (by omega), toNat_ofNat (by omega)] at hn
      exact (Char.toNat_inj.mp hn).symm
    case inr =>
      rw [UInt8.le_iff_toNat_le, toNat_ofNat (by omega)] at hb
      exact absurd hd (Nat.not_lt.mpr hb)
  case mpr =>
    rintro rfl
    simp [utf8EncodeChar_of_lt hd]

theorem lineFeed_mem_utf8EncodeChar {c : Char} : lineFeed ∈ String.utf8EncodeChar c ↔ c = '\n' :=
  mem_utf8EncodeChar_iff (d := '\n') (by decide)

end Utf8

section Encode

variable {s t u : List Char}

@[simp]
theorem encode_nil : encode [] = [] :=
  rfl

theorem encode_cons (c : Char) (s : List Char) :
    encode (c :: s) = String.utf8EncodeChar c ++ encode s :=
  rfl

theorem encode_eq_nil_iff : encode s = [] ↔ s = [] := by
  cases s with
  | nil => simp
  | cons c s => simp [encode_cons, Utf8.utf8EncodeChar_ne_nil c]

theorem mem_encode_iff {d : Char} (hd : d.toNat < 0x80) :
    UInt8.ofNat d.toNat ∈ encode s ↔ d ∈ s := by
  simp [encode, Utf8.mem_utf8EncodeChar_iff hd]

-- A text starts with a character of ASCII if its bytes do.
theorem head?_encode_iff {d : Char} (hd : d.toNat < 0x80) :
    (encode s).head? = some (UInt8.ofNat d.toNat) ↔ s.head? = some d := by
  cases s with
  | nil => simp
  | cons c s =>
    obtain ⟨b, tail, hc⟩ := List.exists_cons_of_ne_nil (Utf8.utf8EncodeChar_ne_nil c)
    have hmem := Utf8.mem_utf8EncodeChar_iff (c := c) hd
    rw [encode_cons, hc, List.cons_append, List.head?_cons, List.head?_cons, Option.some_inj,
      Option.some_inj]
    constructor
    case mp => exact fun hb => hmem.mp (hc ▸ hb ▸ List.mem_cons_self)
    case mpr =>
      rintro rfl
      rw [Utf8.utf8EncodeChar_of_lt hd] at hc
      exact (List.cons.inj hc).1.symm

theorem length_encode (s : List Char) : (encode s).length = size s := by
  induction s with
  | nil => rfl
  | cons c s ih =>
    rw [encode_cons, List.length_append, ih, String.length_utf8EncodeChar, size_cons]

theorem take_encode (h : s = t ++ u) : (encode s).take (size t) = encode t := by
  rw [h, encode_append, List.take_left' (length_encode t)]

theorem drop_encode (h : s = t ++ u) : (encode s).drop (size t) = encode u := by
  rw [h, encode_append, List.drop_left' (length_encode t)]

theorem count_encode (s : List Char) : (encode s).count lineFeed = s.count '\n' := by
  induction s with
  | nil => rfl
  | cons c s ih =>
    rw [encode_cons, List.count_append, ih, List.count_cons, Nat.add_comm]
    congr 1
    by_cases hc : c = '\n'
    case pos => rw [hc]; decide
    case neg =>
      rw [if_neg (by simpa using hc)]
      exact List.count_eq_zero.mpr (mt Utf8.lineFeed_mem_utf8EncodeChar.mp hc)

theorem ne_lineFeed_of_mem {c : Char} {b : UInt8} (hc : c ≠ '\n')
    (h : b ∈ String.utf8EncodeChar c) : b ≠ lineFeed := fun hb =>
  hc (Utf8.lineFeed_mem_utf8EncodeChar.mp (hb ▸ h))

-- The first line of a text, told by its bytes.
theorem takeWhile_encode (s : List Char) :
    (encode s).takeWhile (· ≠ lineFeed) = encode (s.takeWhile (· ≠ '\n')) := by
  induction s with
  | nil => rfl
  | cons c s ih =>
    by_cases hc : c = '\n'
    case pos => rw [hc]; rfl
    case neg =>
      rw [encode_cons, List.takeWhile_append_of_pos fun b hb => by simpa using ne_lineFeed_of_mem hc hb,
        ih, List.takeWhile_cons_of_pos (by simpa using hc), encode_cons]

-- The last line of a text, told by its bytes.
theorem length_takeWhile_reverse_encode (s : List Char) :
    ((encode s).reverse.takeWhile (· ≠ lineFeed)).length =
      size (s.reverse.takeWhile (· ≠ '\n')) := by
  induction s using List.reverseRecOn with
  | nil => rfl
  | append_singleton s c ih =>
    have he : encode [c] = String.utf8EncodeChar c := List.append_nil _
    rw [encode_append, List.reverse_append, List.reverse_concat, he]
    by_cases hc : c = '\n'
    case pos => rw [hc]; rfl
    case neg =>
      rw [List.takeWhile_append_of_pos fun b hb => by
          simpa using ne_lineFeed_of_mem hc (List.mem_reverse.mp hb),
        List.takeWhile_cons_of_pos (by simpa using hc), List.length_append, ih, List.length_reverse,
        String.length_utf8EncodeChar, size_cons]

theorem size_eq_utf8ByteSize (s : List Char) : size s = (String.ofList s).utf8ByteSize := by
  induction s with
  | nil => rfl
  | cons c s ih =>
    have hs : String.ofList (c :: s) = String.singleton c ++ String.ofList s := by
      apply String.toList_injective
      simp
    rw [size_cons, ih, hs, String.utf8ByteSize_append, String.utf8ByteSize_singleton]

-- What stands in front of a text that a source holds ends at a boundary of characters.
theorem isValid_size {source : String} (h : source.toList = t ++ u) :
    (String.Pos.Raw.mk (size t)).IsValid source := by
  have hs : source = String.ofList t ++ String.ofList u := by
    apply String.toList_injective
    simp [h]
  have ht : String.Pos.Raw.mk (size t) = (String.ofList t).rawEndPos := by
    rw [size_eq_utf8ByteSize]
    rfl
  rw [hs, ht]
  exact String.Pos.Raw.isValid_rawEndPos.append_right _

end Encode

theorem decodeLossy.go_encode (s acc : List Char) :
    decodeLossy.go (encode s) acc = acc.reverse ++ s := by
  induction s generalizing acc with
  | nil => simp [encode, go]
  | cons c s ih =>
    obtain ⟨first, tail, he, hn⟩ := Utf8.next_utf8EncodeChar c
    have : encode (c :: s) = first :: (tail ++ encode s) := by simp [encode, he]
    rw [this, go, hn]
    simp [ih]

-- Reading what was written gives the text back.
theorem decodeLossy_encode (s : List Char) : decodeLossy (encode s) = s := by
  simp [decodeLossy, decodeLossy.go_encode]

end LuaBundle.Text

import Mathlib.Data.List.Forall2
import LuaBundle.Proofs.Text.Utf8
import LuaBundle.Text.OsString

namespace LuaBundle

namespace Text

namespace Utf8

variable {first b : UInt8} {bytes tail rest : List UInt8} {ranges : List (UInt8 × UInt8)} {c : Char}

def Within (range : UInt8 × UInt8) (b : UInt8) : Prop :=
  range.1.toNat ≤ b.toNat ∧ b.toNat ≤ range.2.toNat

theorem forall₂_fitting (h : (fitting ranges bytes).length = ranges.length) :
    List.Forall₂ Within ranges (fitting ranges bytes) := by
  fun_induction fitting ranges bytes with
  | case1 low high ranges b bytes hb ih =>
    have hwithin : Within (low, high) b :=
      ⟨UInt8.le_iff_toNat_le.mp hb.1, UInt8.le_iff_toNat_le.mp hb.2⟩
    exact .cons hwithin (ih (by simpa using h))
  | case2 => simp at h
  | case3 ranges bytes hne =>
    obtain rfl : ranges = [] := List.eq_nil_of_length_eq_zero h.symm
    exact .nil

-- What holds for each of the 256 bytes and its ranges holds for a first byte.
theorem of_tails {P : Nat → List (UInt8 × UInt8) → Prop}
    (h : ∀ n < 256, ∀ ranges ∈ tails (UInt8.ofNat n), P n ranges) (ht : tails first = some ranges) :
    P first.toNat ranges := by
  have hfirst := h first.toNat first.toNat_lt ranges
  rw [UInt8.ofNat_toNat] at hfirst
  exact hfirst ht

theorem fitting_isPrefix (ranges : List (UInt8 × UInt8)) (bytes : List UInt8) :
    fitting ranges bytes <+: bytes := by
  fun_induction fitting ranges bytes with
  | case1 low high ranges b bytes _ ih => exact List.cons_prefix_cons.mpr ⟨rfl, ih⟩
  | case2 => exact List.nil_prefix
  | case3 => exact List.nil_prefix

theorem beyond_of_mem_tails (ht : tails first = some ranges) :
    ∀ range ∈ ranges, 0x80 ≤ range.1.toNat := by
  have hall : ranges.all fun range => 0x80 ≤ range.1.toNat :=
    of_tails (P := fun _ ranges => ranges.all fun range => 0x80 ≤ range.1.toNat)
      (by decide +kernel) ht
  simpa using hall

-- Whether the bits of a first byte, or those of the byte behind it, exceed what fewer bytes hold.
def IsShortest (first : Nat) : List (UInt8 × UInt8) → Prop
  | [] => first < 0x80
  | [_] => 2 ≤ first % 0x20
  | [(low, high), _] => 1 ≤ first % 0x10 ∨ 0xA0 ≤ low.toNat ∧ high.toNat < 0xC0
  | [(low, high), _, _] => 1 ≤ first % 0x08 ∨ 0x90 ≤ low.toNat ∧ high.toNat < 0xC0
  | _ => False

instance (first : Nat) (ranges : List (UInt8 × UInt8)) : Decidable (IsShortest first ranges) := by
  unfold IsShortest
  split <;> infer_instance

theorem isShortest_of_tails (ht : tails first = some ranges) : IsShortest first.toNat ranges :=
  of_tails (by decide +kernel) ht

-- What takes more than one byte lies beyond ASCII.
theorem beyond_codePoint (hf : 0x80 ≤ first.toNat) (hs : IsShortest first.toNat ranges)
    (hw : List.Forall₂ Within ranges tail) : 0x80 ≤ codePoint first tail := by
  match ranges, tail, hw with
  | [], _, .nil => exact hf
  | [_], [b], .cons _ .nil =>
    have hs : 2 ≤ first.toNat % 0x20 := hs
    show 0x80 ≤ first.toNat % 0x20 * 0x40 + b.toNat % 0x40
    omega
  | [(low, high), _], [b, c], .cons hb (.cons _ .nil) =>
    have hs : 1 ≤ first.toNat % 0x10 ∨ 0xA0 ≤ low.toNat ∧ high.toNat < 0xC0 := hs
    obtain ⟨hlow, hhigh⟩ : low.toNat ≤ b.toNat ∧ b.toNat ≤ high.toNat := hb
    show 0x80 ≤ (first.toNat % 0x10 * 0x40 + b.toNat % 0x40) * 0x40 + c.toNat % 0x40
    omega
  | [(low, high), _, _], [b, c, d], .cons hb (.cons _ (.cons _ .nil)) =>
    have hs : 1 ≤ first.toNat % 0x08 ∨ 0x90 ≤ low.toNat ∧ high.toNat < 0xC0 := hs
    obtain ⟨hlow, hhigh⟩ : low.toNat ≤ b.toNat ∧ b.toNat ≤ high.toNat := hb
    show 0x80 ≤ ((first.toNat % 0x08 * 0x40 + b.toNat % 0x40) * 0x40 + c.toNat % 0x40) * 0x40 +
      d.toNat % 0x40
    omega
  | _ :: _ :: _ :: _ :: _, _, _ => exact hs.elim

theorem next_isSuffix (first : UInt8) (bytes : List UInt8) : (next first bytes).2 <:+ bytes := by
  unfold next
  split
  case h_1 => exact List.suffix_rfl
  case h_2 =>
    dsimp only
    split
    · exact List.drop_suffix ..
    · exact List.drop_suffix ..

section Ascii

theorem next_ascii (hb : b < 0x80) (bytes : List UInt8) :
    next b bytes = (some (Char.ofNat b.toNat), bytes) := by
  simp [next, tails, hb, fitting, codePoint]

theorem toNat_ofNat_of_ne {n : Nat} (h : Char.ofNat n ≠ '\x00') : (Char.ofNat n).toNat = n := by
  by_cases hn : n.isValidChar
  case pos =>
    rw [Char.ofNat, dif_pos hn]
    rfl
  case neg => exact absurd (by rw [Char.ofNat, dif_neg hn]; rfl) h

-- A character of ASCII is read from its own byte, but for the first one, which also stands for what
-- is no character.
theorem eq_of_next (hc : c.toNat < 0x80) (hne : c ≠ '\x00') (h : (next first bytes).1 = some c) :
    first = UInt8.ofNat c.toNat := by
  have hfirst : first.toNat < 0x80 := by
    by_contra hf
    unfold next at h
    split at h
    case h_1 => cases h
    case h_2 ranges ht =>
      dsimp only at h
      split at h
      case isFalse => cases h
      case isTrue hl =>
        obtain rfl := Option.some.inj h
        rw [toNat_ofNat_of_ne hne] at hc
        have := beyond_codePoint (by omega) (isShortest_of_tails ht) (forall₂_fitting hl)
        omega
  rw [next_ascii (UInt8.lt_iff_toNat_lt.mpr hfirst)] at h
  obtain rfl := Option.some.inj h
  rw [toNat_ofNat_of_ne hne, UInt8.ofNat_toNat]

end Ascii

section Append

theorem fitting_append (hr : ∀ range ∈ ranges, 0x80 ≤ range.1.toNat) (hb : b < 0x80) :
    fitting ranges (bytes ++ b :: rest) = fitting ranges bytes := by
  induction ranges generalizing bytes with
  | nil => cases bytes <;> rfl
  | cons range ranges ih =>
    obtain ⟨hlow, hmore⟩ := List.forall_mem_cons.mp hr
    cases bytes with
    | nil =>
      have hb : ¬ (range.1 ≤ b ∧ b ≤ range.2) := by
        rw [UInt8.lt_iff_toNat_lt] at hb
        rw [UInt8.le_iff_toNat_le]
        simp at hb
        omega
      rw [List.nil_append, fitting, if_neg hb]
      rfl
    | cons d bytes =>
      rw [List.cons_append, fitting, fitting, ih hmore]

-- No character goes on behind a byte of ASCII.
theorem next_append (hb : b < 0x80) (first : UInt8) (bytes rest : List UInt8) :
    next first (bytes ++ b :: rest) =
      ((next first bytes).1, (next first bytes).2 ++ b :: rest) := by
  unfold next
  split
  case h_1 => rfl
  case h_2 ranges ht =>
    dsimp only
    rw [fitting_append (beyond_of_mem_tails ht) hb,
      List.drop_append_of_le_length (fitting_isPrefix ranges bytes).length_le]
    split <;> rfl

end Append

end Utf8

theorem encode_intercalate (sep : List Char) (texts : List (List Char)) :
    encode (sep.intercalate texts) = (encode sep).intercalate (texts.map encode) := by
  induction texts with
  | nil => rfl
  | cons t texts ih =>
    cases texts with
    | nil => simp
    | cons u texts =>
      rw [List.map_cons, List.map_cons, List.intercalate_cons_cons, List.intercalate_cons_cons,
        encode_append, encode_append, ih, List.map_cons]

section Lossy

variable {b : UInt8} {bytes rest : List UInt8} {c : Char}

-- Bytes are read one character after another.
theorem decodeLossy_induction {P : List UInt8 → Prop} (nil : P [])
    (cons : ∀ first bytes, P (Utf8.next first bytes).2 → P (first :: bytes)) (bytes : List UInt8) :
    P bytes :=
  match bytes with
  | [] => nil
  | first :: bytes => cons first bytes (decodeLossy_induction nil cons (Utf8.next first bytes).2)
termination_by bytes.length
decreasing_by
  have := Utf8.length_next first bytes
  simp only [List.length_cons]
  omega

theorem decodeLossy.go_eq (bytes : List UInt8) (acc : List Char) :
    go bytes acc = acc.reverse ++ decodeLossy bytes := by
  induction bytes using decodeLossy_induction generalizing acc with
  | nil => simp [decodeLossy, go]
  | cons first bytes ih => rw [decodeLossy, go.eq_2, ih, go.eq_2, ih]; simp

theorem decodeLossy_nil : decodeLossy [] = [] := by
  simp [decodeLossy, decodeLossy.go]

theorem decodeLossy_cons (first : UInt8) (bytes : List UInt8) :
    decodeLossy (first :: bytes) =
      (Utf8.next first bytes).1.getD '\uFFFD' :: decodeLossy (Utf8.next first bytes).2 := by
  rw [decodeLossy, decodeLossy.go, decodeLossy.go_eq]
  rfl

-- What stands on the two sides of a byte of ASCII is read by itself.
theorem decodeLossy_append_cons (hb : b < 0x80) (bytes rest : List UInt8) :
    decodeLossy (bytes ++ b :: rest) =
      decodeLossy bytes ++ Char.ofNat b.toNat :: decodeLossy rest := by
  induction bytes using decodeLossy_induction with
  | nil => rw [List.nil_append, decodeLossy_cons, Utf8.next_ascii hb, decodeLossy_nil]; rfl
  | cons first bytes ih =>
    rw [List.cons_append, decodeLossy_cons, Utf8.next_append hb, ih, decodeLossy_cons]
    rfl

theorem decodeLossy_intercalate (hb : b < 0x80) (texts : List (List UInt8)) :
    decodeLossy ([b].intercalate texts) =
      [Char.ofNat b.toNat].intercalate (texts.map decodeLossy) := by
  induction texts with
  | nil => exact decodeLossy_nil
  | cons text texts ih =>
    cases texts with
    | nil => simp
    | cons next texts =>
      rw [List.intercalate_cons_cons, List.append_assoc, List.singleton_append,
        decodeLossy_append_cons hb, ih]
      simp only [List.map_cons, List.intercalate_cons_cons, List.append_assoc,
        List.singleton_append]

-- A character of ASCII is read where its byte stands, and nowhere else.
theorem mem_decodeLossy_iff (hc : c.toNat < 0x80) (hne : c ≠ '\x00') :
    c ∈ decodeLossy bytes ↔ UInt8.ofNat c.toNat ∈ bytes := by
  have hb : UInt8.ofNat c.toNat < 0x80 := by
    rw [UInt8.lt_iff_toNat_lt, Utf8.toNat_ofNat (by omega)]
    exact hc
  constructor
  case mp =>
    induction bytes using decodeLossy_induction with
    | nil => simp [decodeLossy_nil]
    | cons first bytes ih =>
      rw [decodeLossy_cons, List.mem_cons]
      rintro (hfirst | hmem)
      case inl =>
        cases hnext : (Utf8.next first bytes).1 with
        | none => rw [hfirst, hnext] at hc; exact absurd hc (by decide)
        | some d =>
          obtain rfl : c = d := by rw [hfirst, hnext]; rfl
          exact Utf8.eq_of_next hc hne hnext ▸ List.mem_cons_self
      case inr => exact List.mem_cons_of_mem _ ((Utf8.next_isSuffix first bytes).subset (ih hmem))
  case mpr =>
    intro h
    obtain ⟨front, rest, rfl⟩ := List.append_of_mem h
    rw [decodeLossy_append_cons hb, Utf8.toNat_ofNat (by omega), Char.ofNat_toNat]
    exact List.mem_append_right _ List.mem_cons_self

-- Text of ASCII is read from its own bytes only. U+0000 also stands for what is no character.
theorem encode_decodeLossy (h : ∀ c ∈ decodeLossy bytes, c.toNat < 0x80 ∧ c ≠ '\x00') :
    encode (decodeLossy bytes) = bytes := by
  induction bytes using decodeLossy_induction with
  | nil => rw [decodeLossy_nil]; rfl
  | cons first bytes ih =>
    rw [decodeLossy_cons] at h ⊢
    obtain ⟨⟨hc, hne⟩, hrest⟩ := List.forall_mem_cons.mp h
    have hb : first < 0x80 := by
      cases hnext : (Utf8.next first bytes).1 with
      | none => rw [hnext] at hc; exact absurd hc (by decide)
      | some c =>
        rw [hnext] at hc hne
        rw [Utf8.eq_of_next hc hne hnext, UInt8.lt_iff_toNat_lt,
          Utf8.toNat_ofNat (Nat.lt_trans hc (by decide))]
        exact hc
    rw [Utf8.next_ascii hb] at hc hne hrest ih ⊢
    rw [encode_cons, ih hrest, Utf8.utf8EncodeChar_of_lt hc]
    dsimp only [Option.getD_some] at hne ⊢
    rw [Utf8.toNat_ofNat_of_ne hne, UInt8.ofNat_toNat]
    rfl

end Lossy

end Text

namespace OsString

variable {s t : OsString} {text : String}

@[simp]
theorem bytes_ofString (text : String) : (ofString text).bytes = Text.encode text.toList :=
  rfl

theorem bytes_injective : Function.Injective bytes :=
  fun _ _ => congrArg mk

theorem bytes_inj : s.bytes = t.bytes ↔ s = t :=
  bytes_injective.eq_iff

@[simp]
theorem map_mk_map_bytes (strings : List OsString) : (strings.map bytes).map mk = strings := by
  rw [List.map_map]
  exact List.map_id strings

-- A text is told by its own bytes.
@[simp]
theorem text_ofString (text : String) : (ofString text).text = text := by
  rw [OsString.text, bytes_ofString, Text.decodeLossy_encode, String.ofList_toList]

theorem ofString_injective : Function.Injective ofString :=
  Function.LeftInverse.injective text_ofString

@[simp]
theorem str?_ofString (text : String) : (ofString text).str? = some text := by
  rw [str?, text_ofString, if_pos rfl]

theorem str?_eq_some_iff : s.str? = some text ↔ s = ofString text := by
  constructor
  case mp =>
    intro h
    unfold str? at h
    split at h
    case isTrue hs => rw [← hs, Option.some.inj h]
    case isFalse => cases h
  case mpr => exact fun h => h ▸ str?_ofString text

-- The string that its text for people spells.
def legible (s : OsString) : OsString :=
  ofString s.text

theorem str?_isSome_iff : s.str?.isSome ↔ s.legible = s := by
  constructor
  case mp =>
    intro h
    obtain ⟨text, ht⟩ := Option.isSome_iff_exists.mp h
    rw [legible, str?_eq_some_iff.mp ht, text_ofString]
  case mpr => exact fun h => h ▸ str?_ofString s.text ▸ rfl

theorem str?_isSome_iff_exists : s.str?.isSome ↔ ∃ text, s = ofString text := by
  simp only [Option.isSome_iff_exists, str?_eq_some_iff]

theorem legible_eq_legible_iff : s.legible = t.legible ↔ s.text = t.text :=
  ofString_injective.eq_iff

theorem text_legible (s : OsString) : s.legible.text = s.text :=
  text_ofString s.text

-- Strings in UTF-8 that read the same are the same.
theorem eq_of_text_eq (hs : s.str?.isSome) (ht : t.str?.isSome) (h : s.text = t.text) : s = t := by
  rw [← str?_isSome_iff.mp hs, legible_eq_legible_iff.mpr h, str?_isSome_iff.mp ht]

section Ascii

variable {c : Char}

theorem mem_text_iff (hc : c.toNat < 0x80) (hne : c ≠ '\x00') :
    c ∈ s.text.toList ↔ UInt8.ofNat c.toNat ∈ s.bytes := by
  rw [OsString.text, String.toList_ofList, Text.mem_decodeLossy_iff hc hne]

theorem mem_legible_iff (hc : c.toNat < 0x80) (hne : c ≠ '\x00') :
    UInt8.ofNat c.toNat ∈ s.legible.bytes ↔ UInt8.ofNat c.toNat ∈ s.bytes := by
  rw [← mem_text_iff hc hne, ← mem_text_iff hc hne, text_legible]

-- No other string reads as a text of ASCII.
theorem text_eq_iff (hascii : ∀ c ∈ text.toList, c.toNat < 0x80 ∧ c ≠ '\x00') :
    s.text = text ↔ s = ofString text := by
  refine ⟨fun h => ?_, fun h => h ▸ text_ofString text⟩
  have hdecode : Text.decodeLossy s.bytes = text.toList := by
    rw [← h, OsString.text, String.toList_ofList]
  refine bytes_injective ?_
  rw [bytes_ofString, ← hdecode, Text.encode_decodeLossy (hdecode ▸ hascii)]

theorem legible_eq_ofString_iff (hascii : ∀ c ∈ text.toList, c.toNat < 0x80 ∧ c ≠ '\x00') :
    s.legible = ofString text ↔ s = ofString text := by
  rw [← text_eq_iff hascii, ← text_eq_iff hascii, text_legible]

end Ascii

end OsString
end LuaBundle

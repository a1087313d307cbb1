import Mathlib.Data.Prod.Lex
import Mathlib.Data.Set.Monotone
import Mathlib.Order.Bounds.Basic
import LuaBundle.Source.Requires
import LuaBundle.Proofs.Source.Lines

namespace LuaBundle

open Text

namespace Lines

variable {source : String} {bytes front more rest : List UInt8}

section Place

theorem placeBehind_concat (front : List UInt8) (b : UInt8) :
    placeBehind (front ++ [b]) =
      if b = lineFeed then ((placeBehind front).1 + 1, 1)
      else ((placeBehind front).1, (placeBehind front).2 + 1) := by
  by_cases hb : b = lineFeed <;> simp [placeBehind, hb]

-- Every byte leads on to a later place: to a new line, or on in its line.
theorem placeBehind_lt_concat (front : List UInt8) (b : UInt8) :
    toLex (placeBehind front) < toLex (placeBehind (front ++ [b])) := by
  rw [placeBehind_concat, Prod.Lex.toLex_lt_toLex]
  split
  case isTrue => exact .inl (Nat.lt_succ_self _)
  case isFalse => exact .inr ⟨rfl, Nat.lt_succ_self _⟩

theorem placeBehind_lt_append (h : more ≠ []) :
    toLex (placeBehind front) < toLex (placeBehind (front ++ more)) := by
  induction more using List.reverseRecOn with
  | nil => exact absurd rfl h
  | append_singleton more b ih =>
    have hlast := placeBehind_lt_concat (front ++ more) b
    rw [List.append_assoc] at hlast
    by_cases hm : more = []
    case pos =>
      subst hm
      rwa [List.append_nil] at hlast
    case neg => exact (ih hm).trans hlast

-- The number of the bytes and one more do not fit into 32 bits, and it is a line or a column: there
-- is no line feed among the bytes, or nothing else.
def Overflows (front : List UInt8) : Prop :=
  front.length + 1 = UInt32.size ∧ (lineFeed ∉ front ∨ ∀ b ∈ front, b = lineFeed)

theorem placeBehind_le (front : List UInt8) :
    (placeBehind front).1 ≤ front.length + 1 ∧ (placeBehind front).2 ≤ front.length + 1 := by
  have hcolumn := (List.takeWhile_prefix (· ≠ lineFeed) (l := front.reverse)).length_le
  rw [List.length_reverse] at hcolumn
  exact ⟨Nat.succ_le_succ List.count_le_length, Nat.succ_le_succ hcolumn⟩

theorem fst_placeBehind_eq_iff :
    (placeBehind front).1 = front.length + 1 ↔ ∀ b ∈ front, b = lineFeed := by
  rw [placeBehind, Nat.succ_inj, List.count_eq_length]
  simp only [eq_comm]

theorem snd_placeBehind_eq_iff :
    (placeBehind front).2 = front.length + 1 ↔ lineFeed ∉ front := by
  rw [placeBehind, Nat.succ_inj, ← @List.length_reverse _ front, ← List.mem_reverse]
  constructor
  · intro h hmem
    rw [← (List.takeWhile_prefix (· ≠ lineFeed)).eq_of_length h] at hmem
    simpa using List.mem_takeWhile_imp hmem
  · intro h
    rw [List.takeWhile_eq_self_iff.mpr fun b hb => by simpa using ne_of_mem_of_not_mem hb h]

-- Nothing else is cut off: both numbers fit.
theorem placeBehind_lt_size (h : front.length < UInt32.size) (ho : ¬ Overflows front) :
    (placeBehind front).1 < UInt32.size ∧ (placeBehind front).2 < UInt32.size := by
  have hle := placeBehind_le front
  have hfst := @fst_placeBehind_eq_iff front
  have hsnd := @snd_placeBehind_eq_iff front
  rw [Overflows, ← hfst, ← hsnd] at ho
  omega

-- Of the two numbers, one is then 2 ^ 32.
theorem Overflows.placeBehind_eq (h : Overflows front) :
    (placeBehind front).1 = UInt32.size ∨ (placeBehind front).2 = UInt32.size := by
  obtain ⟨hsize, hnone | hall⟩ := h
  · exact .inr ((snd_placeBehind_eq_iff.mpr hnone).trans hsize)
  · exact .inl ((fst_placeBehind_eq_iff.mpr hall).trans hsize)

end Place

section Offset

variable {offset : Nat}

theorem exists_parts (h : offset ≤ bytes.length) :
    ∃ front rest, bytes = front ++ rest ∧ front.length = offset :=
  ⟨bytes.take offset, bytes.drop offset, (List.take_append_drop ..).symm, List.length_take_of_le h⟩

theorem position_eq (h : offset ≤ (encode source.toList).length) :
    (of source).position offset =
      (placeBehind ((encode source.toList).take offset)).map .ofNat .ofNat := by
  obtain ⟨front, rest, hbytes, rfl⟩ := exists_parts h
  rw [position_length hbytes, hbytes, List.take_left]

-- Line and column as numbers.
def numbers (place : UInt32 × UInt32) : Nat × Nat :=
  place.map UInt32.toNat UInt32.toNat

theorem numbers_position (h : offset ≤ (encode source.toList).length) (hs : offset < UInt32.size)
    (ho : ¬ Overflows ((encode source.toList).take offset)) :
    numbers ((of source).position offset) = placeBehind ((encode source.toList).take offset) := by
  obtain ⟨hline, hcolumn⟩ := placeBehind_lt_size ((List.length_take_of_le h).trans_lt hs) ho
  rw [position_eq h, numbers, Prod.map_map]
  exact Prod.ext (UInt32.toNat_ofNat_of_lt hline) (UInt32.toNat_ofNat_of_lt hcolumn)

theorem placeBehind_take_strictMonoOn (bytes : List UInt8) :
    StrictMonoOn (fun offset => toLex (placeBehind (bytes.take offset)))
      (Set.Iic bytes.length) := by
  intro m hm n hn hlt
  have hparts := List.take_append_drop m (bytes.take n)
  have hmore : (bytes.take n).drop m ≠ [] := by
    refine List.ne_nil_of_length_pos ?_
    rw [List.length_drop, List.length_take_of_le hn]
    omega
  rw [List.take_take, Nat.min_eq_left hlt.le] at hparts
  dsimp only
  rw [← hparts]
  exact placeBehind_lt_append hmore

-- The line of an offset is the last one that starts at or in front of it.
theorem exists_start (h : offset ≤ (encode source.toList).length) :
    ∃ start, (of source).starts[((of source).upTo offset).length - 1]? = some start ∧
      start ≤ offset := by
  obtain ⟨front, rest, hbytes, rfl⟩ := exists_parts h
  have hl := getLastD_afterFeeds front
  rw [upTo_length hbytes]
  refine ⟨(afterFeeds 0 front).getLastD 0, ?_, by omega⟩
  rw [starts_append hbytes, List.getElem?_append_left (by simp), ← List.getLast?_eq_getElem?,
    List.getLast?_cons, List.getLastD_eq_getLast?]

-- The line behind it, if there is one, starts after the offset, and just after the end of its line.
theorem next_start (h : offset ≤ (encode source.toList).length) {next : Nat}
    (hn : (of source).starts[((of source).upTo offset).length]? = some next) :
    offset < next ∧ (of source).lineEnd offset (encode source.toList).length + 1 = next := by
  obtain ⟨front, rest, hbytes, rfl⟩ := exists_parts h
  rw [upTo_length hbytes, starts_append hbytes,
    List.getElem?_append_right (Nat.le_refl _), Nat.sub_self] at hn
  have hlt := (mem_afterFeeds (List.mem_of_getElem? hn)).1
  refine ⟨hlt, ?_⟩
  rw [lineEnd, starts_beyond hbytes]
  cases hs : afterFeeds front.length rest with
  | nil => simp [hs] at hn
  | cons start beyond =>
    obtain rfl : start = next := by simpa [hs] using hn
    exact Nat.sub_add_cancel (by omega)

theorem isLeast_lineEnd (h : offset ≤ (encode source.toList).length) :
    IsLeast {n | offset ≤ n ∧ ((encode source.toList)[n]? = some lineFeed ∨
        n = (encode source.toList).length)}
      ((of source).lineEnd offset (encode source.toList).length) := by
  obtain ⟨front, rest, hbytes, rfl⟩ := exists_parts h
  have hparts := List.takeWhile_append_dropWhile (p := (· ≠ lineFeed)) (l := rest)
  have hline {b : UInt8} (hb : b ∈ rest.takeWhile (· ≠ lineFeed)) : b ≠ lineFeed := by
    simpa using List.mem_takeWhile_imp hb
  have hbeyond := List.head?_dropWhile_not (· ≠ lineFeed) rest
  have hend := lineEnd_length hbytes
  rw [hbytes, hend]
  generalize rest.takeWhile (· ≠ lineFeed) = line at hparts hline
  generalize rest.dropWhile (· ≠ lineFeed) = beyond at hparts hbeyond
  subst hparts
  refine ⟨⟨Nat.le_add_right .., ?_⟩, fun n ⟨hle, hn⟩ => ?_⟩
  · cases beyond with
    | nil => simp
    | cons b beyond =>
      obtain rfl : b = lineFeed := by simpa using hbeyond
      simp
  · by_contra hlt
    obtain ⟨k, rfl⟩ := Nat.exists_eq_add_of_le hle
    rcases hn with hn | hn
    case inr => simp at hn; omega
    case inl =>
      rw [List.getElem?_append_right (Nat.le_add_right ..), Nat.add_sub_cancel_left,
        List.getElem?_append_left (by omega)] at hn
      exact hline (List.mem_of_getElem? hn) rfl

end Offset

-- The offsets of some bytes, their end included, whose line and column fit into 32 bits.
def narrow (bytes : List UInt8) : Set Nat :=
  {offset | offset ≤ bytes.length ∧ offset < UInt32.size ∧ ¬ Overflows (bytes.take offset)}

-- What the lines of a source tell of every offset of its bytes and of its end.
structure Exact (lines : Lines) (bytes : List UInt8) : Prop where
  -- The starts of lines are in order, so that a binary search finds where they pass an offset.
  sorted : lines.starts.Pairwise (· < ·)
  position : ∀ offset ∈ narrow bytes, numbers (lines.position offset) =
    ((bytes.take offset).count lineFeed + 1,
      ((bytes.take offset).reverse.takeWhile (· ≠ lineFeed)).length + 1)
  increasing : StrictMonoOn (fun offset => toLex (numbers (lines.position offset))) (narrow bytes)
  -- Of a source whose size fits, all offsets are narrow but the end of one line of 2 ^ 32 - 1 bytes
  -- and the end of as many empty lines. There a line or a column is 0.
  wide : ∀ offset ≤ bytes.length, offset < UInt32.size → offset ∉ narrow bytes →
    offset + 1 = UInt32.size ∧
      (lineFeed ∉ bytes.take offset ∨ ∀ b ∈ bytes.take offset, b = lineFeed) ∧
      ((lines.position offset).1 = 0 ∨ (lines.position offset).2 = 0)
  lineEnd : ∀ offset ≤ bytes.length,
    IsLeast {n | offset ≤ n ∧ (bytes[n]? = some lineFeed ∨ n = bytes.length)}
      (lines.lineEnd offset bytes.length)
  -- What is taken away from an offset is the start of its line, which is no greater.
  start : ∀ offset ≤ bytes.length, ∃ start,
    lines.starts[(lines.upTo offset).length - 1]? = some start ∧ start ≤ offset
  -- One is taken away from the start of a later line only, which is not zero.
  next : ∀ offset ≤ bytes.length, ∀ next, lines.starts[(lines.upTo offset).length]? = some next →
    offset < next ∧ lines.lineEnd offset bytes.length + 1 = next

section Exact

variable {offset : Nat}

theorem numbers_position_strictMonoOn (source : String) :
    StrictMonoOn (fun offset => toLex (numbers ((of source).position offset)))
      (narrow (encode source.toList)) := by
  have hin : narrow (encode source.toList) ⊆ Set.Iic (encode source.toList).length := fun _ h => h.1
  have hmono := (placeBehind_take_strictMonoOn (encode source.toList)).mono hin
  exact hmono.congr fun _ ⟨h, hs, ho⟩ => congrArg toLex (numbers_position h hs ho).symm

theorem eq_zero_of_notMem_narrow (h : offset ≤ (encode source.toList).length)
    (hs : offset < UInt32.size) (hn : offset ∉ narrow (encode source.toList)) :
    Overflows ((encode source.toList).take offset) ∧
      (((of source).position offset).1 = 0 ∨ ((of source).position offset).2 = 0) := by
  have ho : Overflows ((encode source.toList).take offset) := by
    by_contra ho
    exact hn ⟨h, hs, ho⟩
  refine ⟨ho, ?_⟩
  rw [position_eq h, Prod.map_fst, Prod.map_snd]
  rcases ho.placeBehind_eq with hl | hc
  · exact .inl (by rw [hl]; rfl)
  · exact .inr (by rw [hc]; rfl)

end Exact

-- Positions are exact wherever they fit, ends of lines are exact, and a call without a closing
-- bracket ends no earlier than it starts.
theorem exact_of (source : String) :
    (of source).Exact (encode source.toList) ∧
    ∀ start ≤ size source.toList,
      let span := (Requires.dynamicCall source (of source) start none).span
      span.start = start ∧ start ≤ span.stop ∧ span.stop ≤ size source.toList := by
  refine ⟨?exact, fun start h => ?span⟩
  case exact => exact {
      sorted := pairwise_starts source
      position := fun _ ⟨h, hs, ho⟩ => numbers_position h hs ho
      increasing := numbers_position_strictMonoOn source
      wide := fun offset h hs hn => by
        obtain ⟨⟨hsize, hone⟩, hzero⟩ := eq_zero_of_notMem_narrow h hs hn
        rw [List.length_take_of_le h] at hsize
        exact ⟨hsize, hone, hzero⟩
      lineEnd := fun _ h => isLeast_lineEnd h
      start := fun _ h => exists_start h
      next := fun _ h _ hn => next_start h hn }
  case span =>
    rw [← length_encode] at h ⊢
    have hleast := isLeast_lineEnd h
    simp only [Requires.dynamicCall, Option.getD_none, ← length_encode]
    exact ⟨rfl, hleast.1.1, hleast.2 ⟨h, .inr rfl⟩⟩

-- A source with a character of two bytes and a call that is left open.
def unclosed : String :=
  "é\nrequire(x"

-- The first of these offsets is inside the character, the second at the line feed.
theorem exact_of_unclosed :
    (encode unclosed.toList).length = 12 ∧
    (of unclosed).position 1 = (1, 2) ∧ (of unclosed).position 2 = (1, 3) ∧
    (of unclosed).position 3 = (2, 1) ∧
    toLex (numbers ((of unclosed).position 1)) < toLex (numbers ((of unclosed).position 3)) ∧
    IsLeast {n | 1 ≤ n ∧ ((encode unclosed.toList)[n]? = some lineFeed ∨ n = 12)}
      ((of unclosed).lineEnd 1 12) ∧
    Requires.of unclosed = .error (Requires.dynamicCall unclosed (of unclosed) 3 none) ∧
    3 ≤ (Requires.dynamicCall unclosed (of unclosed) 3 none).span.stop := by
  have hlength : (encode unclosed.toList).length = 12 := by decide +kernel
  obtain ⟨hexact, hspan⟩ := exact_of unclosed
  have hle {n : Nat} (hn : n ≤ 12) : n ≤ (encode unclosed.toList).length := hlength.symm ▸ hn
  have hnarrow {n : Nat} (hn : n ≤ 12) : n ∈ narrow (encode unclosed.toList) := by
    have hs : n + 1 < UInt32.size := (Nat.succ_le_succ hn).trans_lt (by decide)
    refine ⟨hle hn, by omega, fun ho => ?_⟩
    have := ho.1
    rw [List.length_take_of_le (hle hn)] at this
    omega
  have hleast := hexact.lineEnd 1 (hle (by decide))
  rw [hlength] at hleast
  refine ⟨hlength, by decide +kernel, by decide +kernel, by decide +kernel, ?_, hleast,
    by decide +kernel, (hspan 3 (by decide +kernel)).2.1⟩
  exact hexact.increasing (hnarrow (by decide)) (hnarrow (by decide)) (by decide)

-- A source of one line.
def oneLine (length : Nat) : String :=
  String.ofList (List.replicate length 'a')

theorem encode_oneLine (length : Nat) :
    encode (oneLine length).toList = List.replicate length 0x61 := by
  rw [oneLine, String.toList_ofList]
  induction length with
  | zero => rfl
  | succ length ih => rw [List.replicate_succ, encode_cons, ih]; rfl

theorem placeBehind_oneLine (length : Nat) :
    placeBehind (encode (oneLine length).toList) = (1, length + 1) := by
  have hnone : lineFeed ∉ encode (oneLine length).toList := by
    rw [encode_oneLine]
    exact fun h => absurd (List.eq_of_mem_replicate h) (by decide)
  refine Prod.ext ?_ ((snd_placeBehind_eq_iff.mpr hnone).trans ?_)
  · rw [placeBehind, List.count_eq_zero_of_not_mem hnone]
  · rw [encode_oneLine, List.length_replicate]

theorem position_oneLine (length : Nat) :
    (of (oneLine length)).position length = (1, .ofNat (length + 1)) := by
  have hlength : (encode (oneLine length).toList).length = length := by
    rw [encode_oneLine, List.length_replicate]
  rw [position_eq hlength.ge, List.take_of_length_le hlength.le, placeBehind_oneLine]
  rfl

-- At the end of a line of 2 ^ 32 - 1 bytes the column is 0, which is neither their number and one
-- nor more than the columns before.
theorem position_oneLine_wraps :
    (encode (oneLine (UInt32.size - 1)).toList).length = UInt32.size - 1 ∧
    (of (oneLine (UInt32.size - 1))).position (UInt32.size - 1) = (1, 0) ∧
    placeBehind (encode (oneLine (UInt32.size - 1)).toList) = (1, UInt32.size) ∧
    ¬ StrictMonoOn
        (fun offset => toLex (numbers ((of (oneLine (UInt32.size - 1))).position offset)))
        (Set.Iic (UInt32.size - 1)) := by
  have hend := position_oneLine (UInt32.size - 1)
  have hstart : (of (oneLine (UInt32.size - 1))).position 0 = (1, 1) :=
    position_eq (Nat.zero_le _)
  refine ⟨by rw [encode_oneLine, List.length_replicate], hend, placeBehind_oneLine _, ?_⟩
  intro hmono
  have hlt := hmono (Set.mem_Iic.mpr (Nat.zero_le _)) Set.self_mem_Iic (by decide)
  simp only [hstart, hend] at hlt
  exact absurd hlt (by decide)

end Lines
end LuaBundle

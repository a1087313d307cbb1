import Mathlib.Data.List.Induction
import Mathlib.Data.List.TakeWhile
import LuaBundle.Proofs.Text.Offset
import LuaBundle.Proofs.Text.Utf8
import LuaBundle.Source.Lines

namespace LuaBundle

open Text

-- The span of a text that stands after another: lines end at line feeds, and columns count bytes.
def Span.after (before text : List Char) : Span where
  start := size before
  stop := size before + size text
  line := .ofNat (before.count '\n' + 1)
  column := .ofNat (size (before.reverse.takeWhile (· ≠ '\n')) + 1)

-- The text that a span stands for in a source.
def Span.Covers (span : Span) (source : String) (text : List Char) : Prop :=
  ∃ before rest, source.toList = before ++ (text ++ rest) ∧ span = .after before text

namespace Lines

section Feeds

-- The offsets behind the line feeds of bytes that stand at an offset.
def afterFeeds (offset : Nat) (bytes : List UInt8) : List Nat :=
  (bytes.zipIdx offset).filter (·.1 = lineFeed) |>.map (·.2 + 1)

variable {offset n : Nat} {bytes front rest : List UInt8}

theorem afterFeeds_append (offset : Nat) (front rest : List UInt8) :
    afterFeeds offset (front ++ rest) =
      afterFeeds offset front ++ afterFeeds (offset + front.length) rest := by
  rw [afterFeeds, List.zipIdx_append, List.filter_append, List.map_append]
  rfl

theorem afterFeeds_singleton (offset : Nat) (b : UInt8) :
    afterFeeds offset [b] = if b = lineFeed then [offset + 1] else [] := by
  by_cases hb : b = lineFeed <;> simp [afterFeeds, hb]

theorem afterFeeds_eq_nil (h : lineFeed ∉ bytes) : afterFeeds offset bytes = [] := by
  rw [afterFeeds, List.map_eq_nil_iff, List.filter_eq_nil_iff]
  intro x hx hb
  exact h (of_decide_eq_true hb ▸ List.fst_mem_of_mem_zipIdx hx)

theorem mem_afterFeeds (h : n ∈ afterFeeds offset bytes) :
    offset < n ∧ n ≤ offset + bytes.length := by
  obtain ⟨x, hx, rfl⟩ := List.mem_map.mp h
  have hmem := (List.mem_filter.mp hx).1
  have := List.le_snd_of_mem_zipIdx hmem
  have := List.snd_lt_of_mem_zipIdx hmem
  omega

theorem length_afterFeeds (offset : Nat) (bytes : List UInt8) :
    (afterFeeds offset bytes).length = bytes.count lineFeed := by
  conv_rhs => rw [← List.zipIdx_map_fst offset bytes, List.count_eq_countP, List.countP_map]
  rw [afterFeeds, List.length_map, ← List.countP_eq_length_filter]
  rfl

theorem pairwise_afterFeeds (offset : Nat) (bytes : List UInt8) :
    (afterFeeds offset bytes).Pairwise (· < ·) := by
  have hsorted : ((bytes.zipIdx offset).map Prod.snd).Pairwise (· < ·) :=
    List.zipIdx_map_snd .. ▸ List.pairwise_lt_range' 1
  refine List.pairwise_map.mpr (((List.pairwise_map.mp hsorted).filter _).imp fun h => ?_)
  exact Nat.succ_lt_succ h

theorem getLastD_afterFeeds (front : List UInt8) :
    (afterFeeds 0 front).getLastD 0 + (front.reverse.takeWhile (· ≠ lineFeed)).length =
      front.length := by
  induction front using List.reverseRecOn with
  | nil => rfl
  | append_singleton front b ih =>
    rw [afterFeeds_append, afterFeeds_singleton, List.reverse_concat, List.length_append]
    by_cases hb : b = lineFeed
    case pos => simp [hb]
    case neg =>
      rw [if_neg hb, List.append_nil, List.takeWhile_cons_of_pos (by simpa using hb)]
      simp only [List.length_cons, List.length_nil]
      omega

-- The lines of a text start behind its line feeds.
theorem after_eq (offset : Nat) (s : List Char) :
    of.after offset s = afterFeeds offset (encode s) := by
  induction s generalizing offset with
  | nil => rfl
  | cons c s ih =>
    rw [of.after, ih, encode_cons, afterFeeds_append, String.length_utf8EncodeChar]
    by_cases hc : c = '\n'
    case pos => rw [hc]; rfl
    case neg =>
      rw [if_neg hc, afterFeeds_eq_nil (mt Utf8.lineFeed_mem_utf8EncodeChar.mp hc), List.nil_append]

end Feeds

section Bytes

variable {source : String} {front rest : List UInt8}

theorem starts_of (source : String) :
    (of source).starts = 0 :: afterFeeds 0 (encode source.toList) :=
  congrArg (0 :: ·) (after_eq 0 source.toList)

theorem pairwise_starts (source : String) : (of source).starts.Pairwise (· < ·) := by
  rw [starts_of]
  exact List.pairwise_cons.mpr ⟨fun n h => (mem_afterFeeds h).1, pairwise_afterFeeds ..⟩

theorem starts_append (h : encode source.toList = front ++ rest) :
    (of source).starts = (0 :: afterFeeds 0 front) ++ afterFeeds front.length rest := by
  rw [starts_of, h, afterFeeds_append, Nat.zero_add, List.cons_append]

theorem upTo_length (h : encode source.toList = front ++ rest) :
    (of source).upTo front.length = 0 :: afterFeeds 0 front := by
  have hupTo : ∀ start ∈ 0 :: afterFeeds 0 front, decide (start ≤ front.length) := by
    refine List.forall_mem_cons.mpr ⟨by simp, fun start hs => ?_⟩
    have := mem_afterFeeds hs
    simp
    omega
  have hbeyond : (afterFeeds front.length rest).takeWhile (· ≤ front.length) = [] := by
    cases hr : afterFeeds front.length rest with
    | nil => rfl
    | cons start _ =>
      have hmem : start ∈ afterFeeds front.length rest := hr ▸ List.mem_cons_self
      have := mem_afterFeeds hmem
      exact List.takeWhile_cons_of_neg (by simp; omega)
  rw [upTo, starts_append h, List.takeWhile_append_of_pos hupTo, hbeyond, List.append_nil]

theorem starts_beyond (h : encode source.toList = front ++ rest) :
    (of source).starts.dropWhile (· ≤ front.length) = afterFeeds front.length rest := by
  have hparts := List.takeWhile_append_dropWhile (p := (· ≤ front.length)) (l := (of source).starts)
  rw [← upTo, upTo_length h] at hparts
  exact List.append_cancel_left (hparts.trans (starts_append h))

-- The line and column of what stands behind some bytes.
def placeBehind (front : List UInt8) : Nat × Nat :=
  (front.count lineFeed + 1, (front.reverse.takeWhile (· ≠ lineFeed)).length + 1)

theorem position_length (h : encode source.toList = front ++ rest) :
    (of source).position front.length = (placeBehind front).map .ofNat .ofNat := by
  have hl := getLastD_afterFeeds front
  have hlast : (0 :: afterFeeds 0 front).getLastD 0 = (afterFeeds 0 front).getLastD 0 := by
    cases afterFeeds 0 front <;> rfl
  have hcolumn : front.length - (0 :: afterFeeds 0 front).getLastD 0 =
      (front.reverse.takeWhile (· ≠ lineFeed)).length := by omega
  simp only [position, upTo_length h, List.length_cons, length_afterFeeds, hcolumn, placeBehind,
    Prod.map_apply]

theorem lineEnd_length (h : encode source.toList = front ++ rest) :
    (of source).lineEnd front.length (front ++ rest).length =
      front.length + (rest.takeWhile (· ≠ lineFeed)).length := by
  have hparts := List.takeWhile_append_dropWhile (p := (· ≠ lineFeed)) (l := rest)
  have hnone : afterFeeds front.length (rest.takeWhile (· ≠ lineFeed)) = [] :=
    afterFeeds_eq_nil fun hmem => by simpa using List.mem_takeWhile_imp hmem
  rw [lineEnd, starts_beyond h]
  cases hd : rest.dropWhile (· ≠ lineFeed) with
  | nil =>
    rw [hd, List.append_nil] at hparts
    rw [hparts] at hnone ⊢
    rw [hnone]
    exact List.length_append
  | cons b beyond =>
    have hb := List.head?_dropWhile_not (· ≠ lineFeed) rest
    rw [hd] at hb
    obtain rfl : b = lineFeed := by simpa using hb
    rw [hd, ← List.singleton_append] at hparts
    conv_lhs => rw [← hparts]
    rw [afterFeeds_append, hnone, afterFeeds_append, afterFeeds_singleton, if_pos rfl]
    rfl

end Bytes

section Characters

variable {source : String} {before rest : List Char}

-- A position counts the line feeds in front of it and the bytes since the last one.
theorem position_size (h : source.toList = before ++ rest) :
    (of source).position (size before) =
      (.ofNat (before.count '\n' + 1),
        .ofNat (size (before.reverse.takeWhile (· ≠ '\n')) + 1)) := by
  have hbytes : encode source.toList = encode before ++ encode rest := h ▸ encode_append ..
  rw [← length_encode, position_length hbytes, placeBehind, count_encode,
    length_takeWhile_reverse_encode, Prod.map_apply]

theorem span_eq {text : List Char} (h : source.toList = before ++ (text ++ rest)) :
    (of source).span (size before) (size before + size text) = .after before text := by
  simp only [span, position_size h]
  rfl

theorem covers_span {start stop : Nat} {text : List Char}
    (h : From source.toList start (text ++ rest)) (hs : start + size text = stop) :
    ((of source).span start stop).Covers source text := by
  obtain ⟨before, h, rfl⟩ := h
  exact ⟨before, rest, h, hs ▸ span_eq h⟩

-- A line ends before its line feed, and the last one with the source.
theorem lineEnd_eq {start : Nat} (h : From source.toList start rest) :
    (of source).lineEnd start (size source.toList) = start + size (rest.takeWhile (· ≠ '\n')) := by
  obtain ⟨before, h, rfl⟩ := h
  have hbytes : encode source.toList = encode before ++ encode rest := h ▸ encode_append ..
  have hl := lineEnd_length hbytes
  rwa [← hbytes, length_encode, length_encode, takeWhile_encode, length_encode] at hl

end Characters

end Lines
end LuaBundle

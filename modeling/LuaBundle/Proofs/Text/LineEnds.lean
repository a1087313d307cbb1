import Mathlib.Data.List.Induction
import Mathlib.Data.List.TakeWhile
import LuaBundle.Text.Blank
import LuaBundle.Proofs.Text.Offset

namespace LuaBundle.Text

-- A text whose lines end with a carriage return and a line feed where they ended with a line feed.
def crlf (s : List Char) : List Char :=
  s.flatMap fun c => if c = '\n' then ['\r', '\n'] else [c]

def withCrlf (s : String) : String :=
  String.ofList (crlf s.toList)

section Crlf

variable {s t : List Char} {c : Char} {p : Char → Bool}

@[simp]
theorem crlf_nil : crlf [] = [] :=
  rfl

@[simp]
theorem crlf_line_feed (s : List Char) : crlf ('\n' :: s) = '\r' :: '\n' :: crlf s :=
  rfl

theorem crlf_cons (h : c ≠ '\n') (s : List Char) : crlf (c :: s) = c :: crlf s := by
  rw [crlf, List.flatMap_cons, if_neg h]
  rfl

@[simp]
theorem crlf_append (s t : List Char) : crlf (s ++ t) = crlf s ++ crlf t :=
  List.flatMap_append

theorem crlf_of_not_mem (h : '\n' ∉ s) : crlf s = s := by
  induction s with
  | nil => rfl
  | cons c s ih =>
    obtain ⟨hc, hs⟩ : '\n' ≠ c ∧ '\n' ∉ s := by simpa using h
    rw [crlf_cons hc.symm, ih hs]

-- A class of characters that holds both characters of a line end or none takes and leaves whole
-- line ends.
theorem takeWhile_crlf (hp : p '\r' = p '\n') (s : List Char) :
    (crlf s).takeWhile p = crlf (s.takeWhile p) := by
  induction s with
  | nil => rfl
  | cons c s ih =>
    by_cases hc : c = '\n'
    case pos => cases hn : p '\n' <;> simp [hc, hn, hp, ih]
    case neg => cases hn : p c <;> simp [crlf_cons hc, hn, ih]

theorem dropWhile_crlf (hp : p '\r' = p '\n') (s : List Char) :
    (crlf s).dropWhile p = crlf (s.dropWhile p) := by
  induction s with
  | nil => rfl
  | cons c s ih =>
    by_cases hc : c = '\n'
    case pos => cases hn : p '\n' <;> simp [hc, hn, hp, ih]
    case neg => cases hn : p c <;> simp [crlf_cons hc, hn, ih]

theorem line_feed_not_mem_takeWhile (hn : p '\n' = false) (s : List Char) :
    '\n' ∉ s.takeWhile p := fun h => by
  simp [List.mem_takeWhile_imp h] at hn

theorem takeWhile_take_crlf (hr : p '\r' = false) (hn : p '\n' = false) (n : Nat) (s : List Char) :
    ((crlf s).take n).takeWhile p = (s.take n).takeWhile p := by
  induction s generalizing n with
  | nil => rfl
  | cons c s ih =>
    cases n with
    | zero => simp
    | succ n =>
      by_cases hc : c = '\n'
      case pos => simp [hc, hr, hn]
      case neg => cases h : p c <;> simp [crlf_cons hc, h, ih]

theorem drop_crlf (h : t <+: s) (ht : '\n' ∉ t) :
    (crlf s).drop t.length = crlf (s.drop t.length) := by
  obtain ⟨r, rfl⟩ := h
  rw [crlf_append, crlf_of_not_mem ht, List.drop_left, List.drop_left]

theorem count_crlf (s : List Char) : (crlf s).count '\n' = s.count '\n' := by
  induction s with
  | nil => rfl
  | cons c s ih => by_cases hc : c = '\n' <;> simp [hc, crlf_cons, ih]

-- The line that a text ends in is as long as it was.
theorem takeWhile_reverse_crlf (s : List Char) :
    (crlf s).reverse.takeWhile (· ≠ '\n') = s.reverse.takeWhile (· ≠ '\n') := by
  induction s using List.reverseRecOn with
  | nil => rfl
  | append_singleton s c ih =>
    by_cases hc : c = '\n'
    case pos => simp [hc]
    case neg =>
      rw [crlf_append, crlf_cons hc, crlf_nil, List.reverse_concat, List.reverse_concat,
        List.takeWhile_cons_of_pos (by simpa using hc),
        List.takeWhile_cons_of_pos (by simpa using hc), ih]

theorem trimEnd_concat (s : List Char) (c : Char) :
    trimEnd (s ++ [c]) = if isBlank c then trimEnd s else s ++ [c] := by
  rw [trimEnd, List.reverse_concat]
  cases hc : isBlank c <;> simp [hc, trimEnd]

theorem trimEnd_append {blank : List Char} (h : ∀ c ∈ blank, isBlank c) (s : List Char) :
    trimEnd (s ++ blank) = trimEnd s := by
  obtain ⟨cut, hs, hcut, hlast⟩ := trimEnd_eq_iff.mp (rfl : trimEnd s = trimEnd s)
  refine trimEnd_eq_iff.mpr ⟨cut ++ blank, ?_, List.forall_mem_append.mpr ⟨hcut, h⟩, hlast⟩
  rw [← List.append_assoc, ← hs]

theorem trimEnd_crlf (s : List Char) : trimEnd (crlf s) = crlf (trimEnd s) := by
  induction s using List.reverseRecOn with
  | nil => rfl
  | append_singleton s c ih =>
    by_cases hc : c = '\n'
    case pos =>
      have hn : isBlank '\n' := by decide
      have hr : isBlank '\r' := by decide
      have hends : crlf (s ++ ['\n']) = (crlf s ++ ['\r']) ++ ['\n'] := by simp
      rw [hc, hends, trimEnd_concat, trimEnd_concat, trimEnd_concat, if_pos hn, if_pos hr,
        if_pos hn, ih]
    case neg =>
      have hends : crlf (s ++ [c]) = crlf s ++ [c] := by simp [crlf_cons hc]
      rw [hends, trimEnd_concat, trimEnd_concat, ih]
      split
      case isTrue => rfl
      case isFalse => rw [hends]

end Crlf

-- A byte offset of a text, and the offset of the same place once the lines end in another way.
def Placed (s : List Char) (n n' : Nat) : Prop :=
  ∃ before rest, s = before ++ rest ∧ size before = n ∧ size (crlf before) = n'

theorem Placed.slice_crlf {s : List Char} {m m' n n' : Nat} (hm : Placed s m m')
    (hn : Placed s n n') (hle : m ≤ n) : slice m' n' (crlf s) = crlf (slice m n s) := by
  obtain ⟨a, b, rfl, rfl, rfl⟩ := hm
  obtain ⟨c, d, hs, rfl, rfl⟩ := hn
  obtain ⟨between, rfl, rfl⟩ := exists_append_of_size_le hs hle
  simp only [crlf_append, size_append, slice_size]

end LuaBundle.Text

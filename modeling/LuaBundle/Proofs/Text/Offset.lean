import LuaBundle.Text.Size

namespace LuaBundle.Text

theorem eq_nil_of_size_eq_zero {s : List Char} (h : size s = 0) : s = [] := by
  cases s with
  | nil => rfl
  | cons c s => simp [Nat.ne_of_gt c.utf8Size_pos] at h

theorem size_pos_of_ne_nil {s : List Char} (h : s ≠ []) : 0 < size s :=
  Nat.pos_of_ne_zero (mt eq_nil_of_size_eq_zero h)

-- The text that a text holds from a byte offset on. There is none inside a character.
def From (s : List Char) (offset : Nat) (rest : List Char) : Prop :=
  ∃ before, s = before ++ rest ∧ size before = offset

namespace From

variable {s t u : List Char} {m n : Nat}

theorem offset_add_size (h : From s n u) : n + size u = size s := by
  obtain ⟨before, rfl, rfl⟩ := h
  simp

-- Of two places in a text the later one is reached from the earlier one.
theorem exists_of_le (h₁ : From s m t) (h₂ : From s n u) (hle : m ≤ n) :
    ∃ between, t = between ++ u ∧ m + size between = n := by
  obtain ⟨before₁, rfl, rfl⟩ := h₁
  obtain ⟨before₂, h, rfl⟩ := h₂
  rcases List.append_eq_append_iff.mp h with ⟨between, rfl, rfl⟩ | ⟨between, rfl, rfl⟩
  case inl => exact ⟨between, rfl, by simp⟩
  case inr =>
    obtain rfl : between = [] := eq_nil_of_size_eq_zero (by simp at hle; omega)
    exact ⟨[], by simp, by simp⟩

theorem slice_eq (h : From s n (t ++ u)) : slice n (n + size t) s = t := by
  obtain ⟨before, rfl, rfl⟩ := h
  exact slice_size before t u

theorem slice_takeWhile (h : From s n u) (p : Char → Bool) :
    slice n (n + size (u.takeWhile p)) s = u.takeWhile p := by
  refine slice_eq (u := u.dropWhile p) ?_
  rwa [List.takeWhile_append_dropWhile]

end From

-- Of two ways to part a text the one that takes less goes on to the other.
theorem exists_append_of_size_le {a b c d : List Char} (h : a ++ b = c ++ d)
    (hle : size a ≤ size c) : ∃ between, c = a ++ between ∧ b = between ++ d := by
  have ha : From (a ++ b) (size a) b := ⟨a, rfl, rfl⟩
  have hc : From (a ++ b) (size c) d := ⟨c, h, rfl⟩
  obtain ⟨between, rfl, -⟩ := ha.exists_of_le hc hle
  exact ⟨between, List.append_cancel_right (h.symm.trans (List.append_assoc ..).symm), rfl⟩

-- Whether a byte offset stands between two characters of a text or at one of its ends.
def isBoundary (n : Nat) (s : List Char) : Bool :=
  size (cut n s).1 = n

-- The text between two byte offsets, if they are in order and neither stands inside a character or
-- past the end.
def slice? (start stop : Nat) (s : List Char) : Option (List Char) :=
  if start ≤ stop && isBoundary start s && isBoundary stop s then some (slice start stop s) else none

section Slice

variable {s t : List Char} {m n : Nat}

theorem cut_append_cut (n : Nat) (s : List Char) : (cut n s).1 ++ (cut n s).2 = s := by
  have go (n : Nat) (s acc : List Char) :
      (cut.go n s acc).1 ++ (cut.go n s acc).2 = acc.reverse ++ s := by
    induction s generalizing n acc with
    | nil => simp [cut.go]
    | cons c s ih =>
      rw [cut.go]
      split
      case isTrue => simp [ih]
      case isFalse => rfl
  exact go n s []

theorem isBoundary_iff : isBoundary n s ↔ ∃ rest, From s n rest := by
  rw [isBoundary, decide_eq_true_eq]
  constructor
  case mp => exact fun h => ⟨_, _, (cut_append_cut n s).symm, h⟩
  case mpr =>
    rintro ⟨rest, before, rfl, rfl⟩
    rw [cut_size]

theorem slice?_eq_some_iff : slice? m n s = some t ↔ ∃ rest, From s m (t ++ rest) ∧ m + size t = n := by
  unfold slice?
  constructor
  case mp =>
    intro h
    split at h
    case isFalse => cases h
    case isTrue hb =>
      simp only [Bool.and_eq_true, decide_eq_true_eq, isBoundary_iff] at hb
      obtain ⟨⟨hle, u, hu⟩, v, hv⟩ := hb
      obtain ⟨between, rfl, rfl⟩ := hu.exists_of_le hv hle
      rw [hu.slice_eq] at h
      exact ⟨v, Option.some.inj h ▸ hu, by rw [Option.some.inj h]⟩
  case mpr =>
    rintro ⟨rest, h, rfl⟩
    obtain ⟨before, hs, hn⟩ := id h
    have hstart : isBoundary m s := isBoundary_iff.mpr ⟨_, h⟩
    have hstop : isBoundary (m + size t) s :=
      isBoundary_iff.mpr ⟨rest, before ++ t, by rw [hs, List.append_assoc], by simp [hn]⟩
    rw [if_pos (by simp [hstart, hstop]), h.slice_eq]

end Slice

end LuaBundle.Text

namespace LuaBundle.Text

-- The characters with the Unicode property White_Space.
def isBlank (c : Char) : Bool :=
  let n := c.toNat
  (0x9 ≤ n && n ≤ 0xD) || n == 0x20 || n == 0x85 || n == 0xA0 || n == 0x1680 ||
    (0x2000 ≤ n && n ≤ 0x200A) || n == 0x2028 || n == 0x2029 || n == 0x202F || n == 0x205F ||
    n == 0x3000

def trimEnd (s : List Char) : List Char :=
  (s.reverse.dropWhile isBlank).reverse

-- The blanks at the end are cut, all of them and nothing else.
theorem trimEnd_eq_iff {s t : List Char} :
    trimEnd s = t ↔ ∃ blank, s = t ++ blank ∧ (∀ c ∈ blank, isBlank c) ∧
      ∀ c ∈ t.getLast?, isBlank c = false := by
  constructor
  case mp =>
    rintro rfl
    refine ⟨(s.reverse.takeWhile isBlank).reverse, ?_, ?_, ?_⟩
    · rw [trimEnd, ← List.reverse_append, List.takeWhile_append_dropWhile, List.reverse_reverse]
    · exact fun c hc => List.all_eq_true.mp List.all_takeWhile c (List.mem_reverse.mp hc)
    · intro c hc
      rw [trimEnd, List.getLast?_reverse] at hc
      have hne : s.reverse.dropWhile isBlank ≠ [] := List.ne_nil_of_mem (List.mem_of_mem_head? hc)
      have hhead := List.head_dropWhile_not isBlank hne
      rwa [List.head_eq_iff_head?_eq_some hne |>.mpr hc] at hhead
  case mpr =>
    rintro ⟨blank, rfl, hblank, hlast⟩
    rw [trimEnd, List.reverse_append, List.dropWhile_append_of_pos (by simpa using hblank)]
    cases ht : t.reverse with
    | nil => simpa using ht
    | cons c rest =>
      have hc : isBlank c = false := hlast c (by rw [← List.head?_reverse, ht]; rfl)
      rw [List.dropWhile_cons_of_neg (by simp [hc]), ← ht, List.reverse_reverse]

end LuaBundle.Text

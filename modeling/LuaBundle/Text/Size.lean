namespace LuaBundle.Text

-- The number of bytes that characters take in UTF-8. Every offset of the library counts these.
def size : List Char → Nat
  | [] => 0
  | c :: s => c.utf8Size + size s

@[simp]
theorem size_nil : size [] = 0 :=
  rfl

@[simp]
theorem size_cons (c : Char) (s : List Char) : size (c :: s) = c.utf8Size + size s :=
  rfl

@[simp]
theorem size_append (s t : List Char) : size (s ++ t) = size s + size t := by
  induction s with
  | nil => simp
  | cons c s ih => simp [ih, Nat.add_assoc]

-- A text parted at a byte offset. An offset inside a character parts before that character, and
-- one past the end leaves nothing.
def cut (n : Nat) (s : List Char) : List Char × List Char :=
  go n s []
where
  go (n : Nat) : List Char → List Char → List Char × List Char
    | [], acc => (acc.reverse, [])
    | c :: r, acc => if c.utf8Size ≤ n then go (n - c.utf8Size) r (c :: acc) else (acc.reverse, c :: r)

theorem cut.go_size (s t acc : List Char) : cut.go (size s) (s ++ t) acc = (acc.reverse ++ s, t) := by
  induction s generalizing acc with
  | nil =>
    cases t with
    | nil => simp [go]
    | cons c t => simp [go, Nat.not_le.mpr c.utf8Size_pos]
  | cons c s ih => simp [go, ih]

theorem cut_size (s t : List Char) : cut (size s) (s ++ t) = (s, t) := by
  simp [cut, cut.go_size]

-- The characters between two byte offsets.
def slice (start stop : Nat) (s : List Char) : List Char :=
  (cut (stop - start) (cut start s).2).1

theorem slice_size (s t u : List Char) : slice (size s) (size s + size t) (s ++ (t ++ u)) = t := by
  simp [slice, cut_size]

end LuaBundle.Text

import LuaBundle.Text.Base64

namespace LuaBundle.Text.Base64

-- The standard alphabet of RFC 4648: each character stands at the place of its value.
def alphabet : List Char :=
  "ABCDEFGHIJKLMNOPQRSTUVWXYZabcdefghijklmnopqrstuvwxyz0123456789+/".toList

-- The number that characters denote with six bits each, the first ones highest.
def number? (digits : List Char) : Option Nat :=
  digits.foldlM (fun n c => (alphabet.idxOf? c).map (n * 64 + ·)) 0

-- The bytes that a text denotes: four characters denote 24 bits, and the last four with one or two
-- paddings 16 or 8, behind which there are zeros only. Any other text denotes nothing.
def decode? : List Char → Option (List UInt8)
  | [] => some []
  | [a, b, '=', '='] => do
    let n ← number? [a, b]
    if n % 16 = 0 then some [.ofNat (n / 16)] else none
  | [a, b, c, '='] => do
    let n ← number? [a, b, c]
    if n % 4 = 0 then some [.ofNat (n / 1024), .ofNat (n / 4)] else none
  | a :: b :: c :: d :: rest => do
    let n ← number? [a, b, c, d]
    let bytes ← decode? rest
    some (.ofNat (n / 65536) :: .ofNat (n / 256) :: .ofNat n :: bytes)
  | _ => none

section Digit

theorem idxOf?_digit {n : Nat} (h : n < 64) : alphabet.idxOf? (digit n) = some n := by
  have hall : ∀ n < 64, alphabet.idxOf? (digit n) = some n := by decide +kernel
  exact hall n h

theorem digit_mem (n : Nat) : digit n ∈ alphabet := by
  by_cases h : n < 64
  case pos =>
    have hall : ∀ n < 64, digit n ∈ alphabet := by decide +kernel
    exact hall n h
  case neg =>
    have hslash : digit n = '/' := by
      unfold digit
      rw [if_neg (by omega), if_neg (by omega), if_neg (by omega), if_neg (by omega)]
    rw [hslash]
    decide +kernel

theorem digit_ne_pad (n : Nat) : digit n ≠ '=' := by
  have hpad : '=' ∉ alphabet := by decide +kernel
  exact fun h => hpad (h ▸ digit_mem n)

theorem number?_digits {values : List Nat} (h : ∀ n ∈ values, n < 64) :
    number? (values.map digit) = some (values.foldl (fun n value => n * 64 + value) 0) := by
  have go (start : Nat) :
      (values.map digit).foldlM (fun n c => (alphabet.idxOf? c).map (n * 64 + ·)) start =
        some (values.foldl (fun n value => n * 64 + value) start) := by
    induction values generalizing start with
    | nil => rfl
    | cons n values ih =>
      obtain ⟨hn, hvalues⟩ := List.forall_mem_cons.mp h
      rw [List.map_cons, List.foldlM_cons, idxOf?_digit hn, List.foldl_cons]
      exact ih hvalues _
  exact go 0

end Digit

section Encode

variable (a b c : UInt8) (rest : List UInt8)

-- Induction along the groups of three bytes.
@[elab_as_elim]
theorem groupInduction {motive : List UInt8 → Prop} (nil : motive []) (one : ∀ a, motive [a])
    (two : ∀ a b, motive [a, b])
    (group : ∀ a b c rest, motive rest → motive (a :: b :: c :: rest)) (bytes : List UInt8) :
    motive bytes :=
  match bytes with
  | [] => nil
  | [a] => one a
  | [a, b] => two a b
  | a :: b :: c :: rest => group a b c rest (groupInduction nil one two group rest)

theorem encode.go_eq (bytes : List UInt8) (acc : List Char) :
    go bytes acc = acc.reverse ++ go bytes [] := by
  induction bytes using groupInduction generalizing acc with
  | nil | one | two => simp [go]
  | group a b c rest ih =>
    rw [go, go, ih, ih (_ ++ [])]
    simp

theorem encode_one : encode [a] = group a none none := by
  simp [encode, encode.go]

theorem encode_two : encode [a, b] = group a (some b) none := by
  simp [encode, encode.go]

theorem encode_cons : encode (a :: b :: c :: rest) = group a (some b) (some c) ++ encode rest := by
  rw [encode, encode.go, encode.go_eq, encode]
  simp

-- What bytes are written with.
theorem mem_of_mem_encode {bytes : List UInt8} {c : Char} (h : c ∈ encode bytes) :
    c = '=' ∨ c ∈ alphabet := by
  have of_group {a : UInt8} {b c' : Option UInt8} (h : c ∈ group a b c') :
      c = '=' ∨ c ∈ alphabet := by
    simp only [group, pad, List.mem_cons, List.not_mem_nil, or_false] at h
    rcases h with rfl | rfl | h | h
    · exact .inr (digit_mem _)
    · exact .inr (digit_mem _)
    · split at h
      · exact .inr (h ▸ digit_mem _)
      · exact .inl h
    · split at h
      · exact .inr (h ▸ digit_mem _)
      · exact .inl h
  induction bytes using groupInduction with
  | nil => cases h
  | one a => exact of_group (encode_one a ▸ h)
  | two a b => exact of_group (encode_two a b ▸ h)
  | group a b c rest ih =>
    rw [encode_cons] at h
    exact (List.mem_append.mp h).elim of_group ih

end Encode

section Decode

variable (a b c : UInt8)

theorem ofNat_eq {n : Nat} {a : UInt8} (h : n % 256 = a.toNat) : UInt8.ofNat n = a := by
  rw [← UInt8.toNat_inj, UInt8.toNat_ofNat', h]

-- The bits of a group, told by the characters that it is written with.
theorem number?_one : number? [digit (a.toNat / 4), digit (a.toNat % 4 * 16)] =
    some (a.toNat * 16) := by
  have ha := a.toNat_lt
  have h : ∀ n ∈ [a.toNat / 4, a.toNat % 4 * 16], n < 64 := by simp; omega
  refine (number?_digits h).trans (congrArg some ?_)
  simp only [List.foldl_cons, List.foldl_nil]
  omega

theorem number?_two :
    number? [digit (a.toNat / 4), digit (a.toNat % 4 * 16 + b.toNat / 16),
      digit (b.toNat % 16 * 4)] = some ((a.toNat * 256 + b.toNat) * 4) := by
  have ha := a.toNat_lt
  have hb := b.toNat_lt
  have h : ∀ n ∈ [a.toNat / 4, a.toNat % 4 * 16 + b.toNat / 16, b.toNat % 16 * 4], n < 64 := by
    simp; omega
  refine (number?_digits h).trans (congrArg some ?_)
  simp only [List.foldl_cons, List.foldl_nil]
  omega

theorem number?_three :
    number? [digit (a.toNat / 4), digit (a.toNat % 4 * 16 + b.toNat / 16),
      digit (b.toNat % 16 * 4 + c.toNat / 64), digit (c.toNat % 64)] =
        some ((a.toNat * 256 + b.toNat) * 256 + c.toNat) := by
  have ha := a.toNat_lt
  have hb := b.toNat_lt
  have hc := c.toNat_lt
  have h : ∀ n ∈ [a.toNat / 4, a.toNat % 4 * 16 + b.toNat / 16,
      b.toNat % 16 * 4 + c.toNat / 64, c.toNat % 64], n < 64 := by
    simp; omega
  refine (number?_digits h).trans (congrArg some ?_)
  simp only [List.foldl_cons, List.foldl_nil]
  omega

theorem decode?_one {x y : Char} {n : Nat} (h : number? [x, y] = some (n * 16)) :
    decode? [x, y, '=', '='] = some [.ofNat n] := by
  simp [decode?, h]

theorem decode?_two {x y z : Char} {n : Nat} (hz : z ≠ '=')
    (h : number? [x, y, z] = some (n * 4)) :
    decode? [x, y, z, '='] = some [.ofNat (n / 256), .ofNat n] := by
  have hdiv : n * 4 / 1024 = n / 256 := by omega
  simp [decode?, h, hdiv]

theorem decode?_cons {w x y z : Char} {n : Nat} (hz : z ≠ '=')
    (h : number? [w, x, y, z] = some n) (rest : List Char) :
    decode? (w :: x :: y :: z :: rest) =
      (decode? rest).bind fun bytes =>
        some (.ofNat (n / 65536) :: .ofNat (n / 256) :: .ofNat n :: bytes) := by
  simp [decode?, hz, h]

-- Bytes are had back from the text that they are written as.
theorem decode?_encode (bytes : List UInt8) : decode? (encode bytes) = some bytes := by
  induction bytes using groupInduction with
  | nil => rfl
  | one a =>
    have hgroup : group a none none =
        [digit (a.toNat / 4), digit (a.toNat % 4 * 16), '=', '='] := by
      simp [group, pad]
    rw [encode_one, hgroup, decode?_one (number?_one a), UInt8.ofNat_toNat]
  | two a b =>
    have ha := a.toNat_lt
    have hb := b.toNat_lt
    have hfirst : UInt8.ofNat ((a.toNat * 256 + b.toNat) / 256) = a := ofNat_eq (by omega)
    have hsecond : UInt8.ofNat (a.toNat * 256 + b.toNat) = b := ofNat_eq (by omega)
    have hgroup : group a (some b) none = [digit (a.toNat / 4),
        digit (a.toNat % 4 * 16 + b.toNat / 16), digit (b.toNat % 16 * 4), '='] := by
      simp [group, pad]
    rw [encode_two, hgroup, decode?_two (digit_ne_pad _) (number?_two a b), hfirst,
      hsecond]
  | group a b c rest ih =>
    have ha := a.toNat_lt
    have hb := b.toNat_lt
    have hc := c.toNat_lt
    have hfirst : UInt8.ofNat (((a.toNat * 256 + b.toNat) * 256 + c.toNat) / 65536) = a :=
      ofNat_eq (by omega)
    have hsecond : UInt8.ofNat (((a.toNat * 256 + b.toNat) * 256 + c.toNat) / 256) = b :=
      ofNat_eq (by omega)
    have hthird : UInt8.ofNat ((a.toNat * 256 + b.toNat) * 256 + c.toNat) = c :=
      ofNat_eq (by omega)
    have hgroup : group a (some b) (some c) = [digit (a.toNat / 4),
        digit (a.toNat % 4 * 16 + b.toNat / 16), digit (b.toNat % 16 * 4 + c.toNat / 64),
        digit (c.toNat % 64)] := by
      simp [group]
    rw [encode_cons, hgroup]
    refine (decode?_cons (digit_ne_pad _) (number?_three a b c) (encode rest)).trans ?_
    rw [ih, hfirst, hsecond, hthird]
    rfl

-- Texts with each number of paddings.
example : ["Zm9v", "Zm8=", "Zg==", "Zh==", "Zm9"].map (fun s => decode? s.toList) =
    [some [102, 111, 111], some [102, 111], some [102], none, none] := by
  decide +kernel

end Decode

end LuaBundle.Text.Base64

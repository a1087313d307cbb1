import Mathlib.Data.List.Basic
import LuaBundle.Proofs.Lua.Cursor.Lex
import LuaBundle.Proofs.Lua.Gaps
import LuaBundle.Proofs.Source.Program
import LuaBundle.Proofs.Text.Utf8

namespace LuaBundle.Lua

open Embed Text

section Bytes

-- A byte that may stand in a name.
def isNameByte (b : UInt8) : Bool :=
  (0x41 ≤ b && b ≤ 0x5A) || (0x61 ≤ b && b ≤ 0x7A) || (0x30 ≤ b && b ≤ 0x39) || b = 0x5F || 0x80 ≤ b

-- The bytes of a character may stand in a name if the character may.
theorem isNameByte_of_mem {c : Char} {b : UInt8} (h : b ∈ String.utf8EncodeChar c) :
    isNameByte b = isNameCharacter c := by
  have hascii : ∀ n < 0x80, isNameByte (UInt8.ofNat n) = isNameCharacter (Char.ofNat n) := by decide
  by_cases hc : c.toNat < 0x80
  case pos =>
    rw [Utf8.utf8EncodeChar_of_lt hc, List.mem_singleton] at h
    rw [h, hascii _ hc, Char.ofNat_toNat]
  case neg =>
    have hb := (Utf8.eq_or_le_of_mem_utf8EncodeChar h).resolve_left fun hb => hc hb.1
    have hn : isNameCharacter c := by
      have : 0x80 ≤ c.toNat := by omega
      simp [isNameCharacter, isNameStart, this]
    simp [isNameByte, hb, hn]

theorem head?_encode {s : List Char} (h : s.head?.any isNameCharacter = false) :
    (encode s).head?.all fun b => !isNameByte b := by
  cases s with
  | nil => rfl
  | cons c s =>
    obtain ⟨b, bytes, he⟩ := List.exists_cons_of_ne_nil (Utf8.utf8EncodeChar_ne_nil c)
    have hb := isNameByte_of_mem (c := c) (b := b) (by simp [he])
    have hc : isNameCharacter c = false := by simpa using h
    simp [encode, he, hb, hc]

theorem getLast?_encode {s : List Char} (h : s.getLast?.all fun c => !isNameCharacter c) :
    (encode s).getLast?.all fun b => !isNameByte b := by
  rcases List.eq_nil_or_concat' s with rfl | ⟨s, c, rfl⟩
  case inl => rfl
  case inr =>
    have hne := Utf8.utf8EncodeChar_ne_nil c
    have hb := isNameByte_of_mem (List.getLast_mem hne)
    have hc : isNameCharacter c = false := by simpa using h
    have he : encode (s ++ [c]) = encode s ++ String.utf8EncodeChar c := by simp [encode]
    rw [he, List.getLast?_append_of_ne_nil _ hne, List.getLast?_eq_some_getLast hne]
    simp [hb, hc]

-- A character beyond ASCII starts with a byte beyond ASCII.
theorem le_head?_encode {c : Char} (h : 0x80 ≤ c.toNat) (s : List Char) :
    (encode (c :: s)).head?.any fun b => 0x80 ≤ b := by
  obtain ⟨b, bytes, he⟩ := List.exists_cons_of_ne_nil (Utf8.utf8EncodeChar_ne_nil c)
  have hmem : b ∈ String.utf8EncodeChar c := by simp [he]
  have hb := (Utf8.eq_or_le_of_mem_utf8EncodeChar hmem).resolve_left fun hb => by omega
  simp [encode, he, hb]

end Bytes

section Token

variable {c : Char} {r : List Char} {text : String}

theorem head?_rest_of_value_eq_name (h : (token c r).value = .name text) :
    (token c r).rest.head?.any isNameCharacter = false := by
  rw [token_name (isNameStart_of_value_eq_name h)]
  exact head?_dropWhile_any isNameCharacter r

end Token

section Before

variable {start n : Nat} {s : List Char} {t : Token} {earlier later : List Token} {name : String}

-- The first token of a text stands behind white space and comments.
theorem exists_first (h : lexFrom n s = t :: later) :
    ∃ gap c r, s = gap ++ c :: r ∧ IsTrivia gap ∧ t.kind = (token c r).value ∧
      t.start = n + size gap := by
  cases hs : (trivia s).2 with
  | nil => simp [lexFrom_eq_nil hs] at h
  | cons c r =>
    rw [lexFrom_eq_cons hs] at h
    obtain ⟨rfl, -⟩ := List.cons.inj h
    exact ⟨(trivia s).1, c, r, by rw [← hs, trivia_append],
      isTrivia_trivia_of_ne_nil (by simp [hs]), rfl, rfl⟩

-- In front of a name there is nothing that could belong to it, unless a number ends there and the
-- name does not begin with a letter.
theorem exists_before (h : lexFrom start s = earlier ++ t :: later) (hname : t.kind = .name name) :
    ∃ before c r, s = before ++ c :: r ∧ t.start = start + size before ∧ isNameStart c ∧
      ((before.getLast?.all fun d => !isNameCharacter d) ∨
        isWord c = false ∧ ∃ front u, earlier = front ++ [u] ∧ u.kind = .number ∧
          u.stop = t.start) := by
  rcases List.eq_nil_or_concat' earlier with rfl | ⟨front, u, rfl⟩
  case inl =>
    obtain ⟨gap, c, r, hs, hgap, hkind, hstart⟩ := exists_first h
    exact ⟨gap, c, r, hs, hstart, isNameStart_of_value_eq_name (hkind.symm.trans hname),
      .inl hgap.not_isNameCharacter⟩
  case inr =>
    rw [List.append_assoc, List.singleton_append] at h
    obtain ⟨before, d, q, stands, hu, hlater⟩ := exists_stands h
    obtain ⟨gap, c, r, hrest, hgap, hkind, hstart⟩ := exists_first hlater.symm
    have hc := isNameStart_of_value_eq_name (hkind.symm.trans hname)
    have hs : s = before ++ ((token d q).text ++ (gap ++ c :: r)) := by
      rw [stands.eq, ← hrest, token_splits d q]
    refine ⟨before ++ ((token d q).text ++ gap), c, r, by simpa using hs, ?_, hc, ?_⟩
    · rw [hstart, hu]
      simp only [size_append]
      omega
    · rcases List.eq_nil_or_concat' gap with rfl | ⟨gap, e, rfl⟩
      case inl =>
        have hne := token_text_ne_nil d q
        have hnext : (token d q).rest.head?.any isNameStart := by simp [hrest, hc]
        rw [List.append_nil, List.getLast?_append_of_ne_nil _ hne]
        refine (not_isNameCharacter_of_isNameStart hnext).imp_right fun ⟨hnumber, hw⟩ => ?_
        refine ⟨by simpa [hrest] using hw, front, u, rfl, ?_, ?_⟩
        · rw [hu, hnumber]
        · rw [hstart, size_nil, Nat.add_zero]
      case inr =>
        have hlast := hgap.not_isNameCharacter
        exact .inl (by simpa [← List.append_assoc] using hlast)

end Before

-- What stands in front of a program in its source: a byte order mark, if the source starts with
-- one, and then a line that starts with `#`, if there is one.
structure Front (source mark line program : List Char) : Prop where
  eq : source = mark ++ (line ++ program)
  mark : mark = [byteOrderMark] ∨ mark = [] ∧ source.head? ≠ some byteOrderMark
  line : (line.head? = some '#' ∧ '\n' ∉ line ∧ program.head?.all (· = '\n')) ∨
    line = [] ∧ program.head? ≠ some '#'

theorem hashLine_front (s : List Char) :
    ((preamble.hashLine s).1.head? = some '#' ∧ '\n' ∉ (preamble.hashLine s).1 ∧
        (preamble.hashLine s).2.head?.all (· = '\n')) ∨
      (preamble.hashLine s).1 = [] ∧ (preamble.hashLine s).2.head? ≠ some '#' := by
  unfold preamble.hashLine
  split
  case isTrue h =>
    obtain ⟨s, rfl⟩ := List.head?_eq_some_iff.mp h
    refine .inl ⟨rfl, fun hm => ?_, ?_⟩
    · simpa using List.mem_takeWhile_imp hm
    · simpa using head?_dropWhile_all (fun c => decide (c ≠ '\n')) ('#' :: s)
  case isFalse h => exact .inr ⟨rfl, h⟩

theorem exists_front (source : String) :
    ∃ mark line program, Front source.toList mark line program ∧
      (preamble source.toList) = (mark ++ line, program) := by
  have happend (s : List Char) := preamble.hashLine_append s
  by_cases hs : source.toList.head? = some byteOrderMark
  case pos =>
    obtain ⟨s, hs⟩ := List.head?_eq_some_iff.mp hs
    have hp : preamble source.toList =
        (byteOrderMark :: (preamble.hashLine s).1, (preamble.hashLine s).2) := by rw [hs]; rfl
    exact ⟨[byteOrderMark], _, _, ⟨by rw [hs, happend]; rfl, .inl rfl, hashLine_front s⟩, hp⟩
  case neg =>
    exact ⟨[], _, _, ⟨(happend _).symm, .inr ⟨rfl, hs⟩, hashLine_front _⟩, preamble_eq_hashLine hs⟩

-- How a name begins in a source: behind no byte that could belong to it, unless that is a byte
-- order mark or a number ends there and the name does not begin with an ASCII character.
inductive NameBegins (bytes : List UInt8) (earlier : List Token) (t : Token) : Prop
  | apart (h : (bytes.take t.start).getLast?.all fun b => !isNameByte b)
  | mark (h : bytes.take t.start = [0xEF, 0xBB, 0xBF])
  | number {front : List Token} {u : Token} (h : earlier = front ++ [u]) (hkind : u.kind = .number)
      (hstop : u.stop = t.start) (hbyte : (bytes.drop t.start).head?.any fun b => 0x80 ≤ b)

-- How tokens lie in a source. They are also what is found by a cursor that moves from byte to byte
-- and takes slices out of the source: none of its slices begins or ends inside a character.
structure Partition (source : String) (tokens : List Token) : Prop where
  cursor : Cursor.lex? (encode source.toList) = some tokens
  inOrder : InOrder tokens
  length_le : tokens.length ≤ size source.toList
  stop_le : ∀ t ∈ tokens, t.stop ≤ size source.toList
  isValid : ∀ t ∈ tokens, (String.Pos.Raw.mk t.start).IsValid source ∧
    (String.Pos.Raw.mk t.stop).IsValid source
  text : ∀ t ∈ tokens, ∀ text, t.kind = .name text ∨ t.kind = .symbol text →
    ((encode source.toList).take t.stop).drop t.start = encode text.toList
  nameEnds : ∀ t ∈ tokens, ∀ name, t.kind = .name name →
    ((encode source.toList).drop t.stop).head?.all fun b => !isNameByte b
  nameBegins : ∀ earlier t later name, tokens = earlier ++ t :: later → t.kind = .name name →
    NameBegins (encode source.toList) earlier t
  laid : ∃ mark line program, Front source.toList mark line program ∧
    Laid (size mark + size line) program tokens

section Partition

variable {source : String} {t : Token} {earlier later : List Token} {name text : String}

theorem exists_token (h : t ∈ lex source) :
    ∃ before c r, source.toList = before ++ ((token c r).text ++ (token c r).rest) ∧
      t = ⟨(token c r).value, size before, size before + size (token c r).text⟩ := by
  obtain ⟨earlier, later, h⟩ := List.append_of_mem h
  obtain ⟨before, c, r, stands, ht, -⟩ := exists_standsIn h
  exact ⟨before, c, r, by rw [stands.eq, token_splits c r], ht⟩

theorem bytes_of_mem (h : t ∈ lex source) (hkind : t.kind = .name text ∨ t.kind = .symbol text) :
    ((encode source.toList).take t.stop).drop t.start = encode text.toList := by
  obtain ⟨before, c, r, hs, rfl⟩ := exists_token h
  have htext : (token c r).text = text.toList := by
    rcases hkind with hkind | hkind
    case inl => exact text_of_value_eq_name hkind
    case inr => exact text_of_value_eq_symbol hkind
  rw [← List.append_assoc] at hs
  have htake := take_encode hs
  rw [size_append] at htake
  rw [htake, drop_encode rfl, htext]

theorem nameEnds_of_mem (h : t ∈ lex source) (hname : t.kind = .name name) :
    ((encode source.toList).drop t.stop).head?.all fun b => !isNameByte b := by
  obtain ⟨before, c, r, hs, rfl⟩ := exists_token h
  rw [← List.append_assoc] at hs
  have hdrop := drop_encode hs
  rw [size_append] at hdrop
  rw [hdrop]
  exact head?_encode (head?_rest_of_value_eq_name hname)

theorem nameBegins_of_eq (h : lex source = earlier ++ t :: later) (hname : t.kind = .name name) :
    NameBegins (encode source.toList) earlier t := by
  obtain ⟨before, c, r, hprogram, hstart, hc, hbefore⟩ :=
    exists_before (lex_eq_lexFrom source ▸ h) hname
  have hs := preamble_append source.toList
  rw [hprogram, ← List.append_assoc] at hs
  rw [← size_append] at hstart
  have htake := take_encode hs.symm
  have hdrop := drop_encode hs.symm
  rw [← hstart] at htake hdrop
  rcases hbefore with hlast | ⟨hw, front, u, rfl, hkind, hstop⟩
  case inl =>
    cases before with
    | cons d before =>
      refine .apart ?_
      rw [htake]
      exact getLast?_encode (by rwa [List.getLast?_append_of_ne_nil _ (List.cons_ne_nil _ _)])
    | nil =>
      rw [List.append_nil] at htake
      rcases preamble_cases source.toList with hp | hp | hp
      · refine .apart ?_
        rw [htake, hp]
        rfl
      · refine .mark ?_
        rw [htake, hp]
        decide
      · obtain rfl : c = '\n' := by simpa [hprogram] using hp
        exact absurd hc (by decide)
  case inr =>
    refine .number rfl hkind hstop ?_
    rw [hdrop]
    refine le_head?_encode ?_ r
    by_contra hn
    simp [isNameStart, isWord, hn] at hc hw
    simp [hw] at hc

-- The tokens of a source and the white space and comments between them make up the source.
theorem partition_lex (source : String) : Partition source (lex source) where
  cursor := Cursor.lex?_encode source
  inOrder := inOrder_lex source
  length_le := by
    obtain ⟨mark, line, program, front, hp⟩ := exists_front source
    have hle := (laid_lexFrom (size (mark ++ line)) program).length_le
    rw [lex_eq_lexFrom, hp, front.eq, ← List.append_assoc, size_append (mark ++ line)]
    exact Nat.le_add_left_of_le hle
  stop_le t ht := by
    obtain ⟨before, c, r, hs, rfl⟩ := exists_token ht
    rw [hs]
    simp only [size_append]
    omega
  isValid t ht := by
    obtain ⟨before, c, r, hs, rfl⟩ := exists_token ht
    have hstop := isValid_size ((List.append_assoc ..).trans hs.symm).symm
    rw [size_append] at hstop
    exact ⟨isValid_size hs, hstop⟩
  text _ ht _ hkind := bytes_of_mem ht hkind
  nameEnds _ ht _ hname := nameEnds_of_mem ht hname
  nameBegins _ _ _ _ h hname := nameBegins_of_eq h hname
  laid := by
    obtain ⟨mark, line, program, front, hp⟩ := exists_front source
    refine ⟨mark, line, program, front, ?_⟩
    rw [lex_eq_lexFrom, hp, ← size_append]
    exact laid_lexFrom _ _

-- A number may stand right in front of a name beyond ASCII, and so may a byte order mark.
example : lex "\uFEFF#!\n1é --" = [⟨.number, 6, 7⟩, ⟨.name "é", 7, 9⟩] := by
  decide +kernel

end Partition
end LuaBundle.Lua

import Mathlib.Data.List.Chain
import LuaBundle.Proofs.Lua.Places
import LuaBundle.Proofs.Lua.Quote

namespace LuaBundle.Lua

open Text

-- The bytes that a letter, a quote and a backslash denote behind a backslash.
def byteEscapes : List (Char × UInt8) :=
  [('a', 0x07), ('b', 0x08), ('f', 0x0C), ('n', 0x0A), ('r', 0x0D), ('t', 0x09), ('v', 0x0B),
    ('\\', 0x5C), ('"', 0x22), ('\'', 0x27)]

def lineBreaks : List (List Char) :=
  [['\n'], ['\r'], ['\r', '\n'], ['\n', '\r']]

-- What a short literal in quotes `quote` is put together from.
inductive Piece (quote : Char)
  | plain (c : Char) (h : c ∉ [quote, '\\', '\r', '\n'])
  | byte (c : Char) (b : UInt8) (h : (c, b) ∈ byteEscapes)
  | lineBreak (s : List Char) (h : s ∈ lineBreaks)
  | hex (high low : Char) (hhigh : isHexDigit high) (hlow : isHexDigit low)
  | decimal (first : Char) (digits : List Char) (hfirst : first.isDigit)
      (hdigits : ∀ c ∈ digits, c.isDigit) (hlength : digits.length ≤ 2)
      (hvalue : digitsValue 10 (first :: digits) ≤ 255)
  | scalar (digits : List Char) (hne : digits ≠ []) (hdigits : ∀ c ∈ digits, isHexDigit c)
      (hvalue : (digitsValue 16 digits).isValidChar)
  | skip (blank : List Char) (h : ∀ c ∈ blank, isSpace c)

theorem eq_of_isQuote {c : Char} (h : isQuote c) : c = '"' ∨ c = '\'' := by
  simpa [isQuote] using h

section Escape

variable {s : List Char}

theorem escape_byte {c : Char} {b : UInt8} (h : (c, b) ∈ byteEscapes) (s : List Char) :
    escape (c :: s) = ⟨[c], [b], s⟩ := by
  simp only [byteEscapes, List.mem_cons, Prod.mk.injEq, List.not_mem_nil, or_false] at h
  rcases h with ⟨rfl, rfl⟩ | ⟨rfl, rfl⟩ | ⟨rfl, rfl⟩ | ⟨rfl, rfl⟩ | ⟨rfl, rfl⟩ | ⟨rfl, rfl⟩ |
    ⟨rfl, rfl⟩ | ⟨rfl, rfl⟩ | ⟨rfl, rfl⟩ | ⟨rfl, rfl⟩ <;> rfl

theorem breakPartner_eq_nil {c : Char} (hs : s.head?.all fun d => !isLineBreak d) :
    breakPartner c s = [] := by
  cases s with
  | nil => rfl
  | cons d s =>
    have hd : isLineBreak d = false := by simpa using hs
    simp [breakPartner, hd]

theorem escape_lineBreak {e : List Char} (h : e ∈ lineBreaks)
    (hs : s.head?.all fun d => !isLineBreak d) : escape (e ++ s) = ⟨e, [0x0A], s⟩ := by
  simp only [lineBreaks, List.mem_cons, List.not_mem_nil, or_false] at h
  rcases h with rfl | rfl | rfl | rfl
  case inl => simp [escape, letterEscape?, isLineBreak, breakPartner_eq_nil hs]
  case inr.inl => simp [escape, letterEscape?, isLineBreak, breakPartner_eq_nil hs]
  case inr.inr.inl => rfl
  case inr.inr.inr => rfl

theorem escape_hex {high low : Char} (hhigh : isHexDigit high) (hlow : isHexDigit low)
    (s : List Char) :
    escape ('x' :: high :: low :: s) =
      ⟨['x', high, low], [UInt8.ofNat (digitsValue 16 [high, low])], s⟩ := by
  have hb : isLineBreak 'x' = false := by decide
  simp [escape, letterEscape?, hb, hhigh, hlow]

-- Reading at most `n` characters of a class stops behind `n` of them and in front of any other.
theorem takeWhile_take_append_of_head? {p : Char → Bool} {n : Nat} {t y : List Char}
    (ht : ∀ c ∈ t, p c) (hn : t.length ≤ n) (hy : t.length = n ∨ y.head?.all fun c => !p c) :
    ((t ++ y).take n).takeWhile p = t := by
  rw [List.take_append, List.take_of_length_le hn]
  refine takeWhile_append_of_head? ht ?_
  rcases hy with hy | hy
  case inl => simp [hy]
  case inr =>
    rw [List.head?_take]
    split
    case isTrue => rfl
    case isFalse => exact hy

theorem escape_decimal {first : Char} {digits : List Char} (hfirst : first.isDigit)
    (hdigits : ∀ c ∈ digits, c.isDigit) (hlength : digits.length ≤ 2)
    (hvalue : digitsValue 10 (first :: digits) ≤ 255)
    (hs : digits.length = 2 ∨ s.head?.all fun c => !c.isDigit) :
    escape (first :: (digits ++ s)) =
      ⟨first :: digits, [UInt8.ofNat (digitsValue 10 (first :: digits))], s⟩ := by
  rw [escape_digit hfirst, takeWhile_take_append_of_head? hdigits hlength hs]
  dsimp only
  rw [Nat.min_eq_left hvalue, List.drop_left]

theorem escape_scalar {digits : List Char} (hdigits : ∀ c ∈ digits, isHexDigit c)
    (hvalue : (digitsValue 16 digits).isValidChar) (s : List Char) :
    escape ('u' :: '\x7b' :: (digits ++ '\x7d' :: s)) =
      ⟨'u' :: '\x7b' :: (digits ++ ['\x7d']),
        String.utf8EncodeChar (Char.ofNat (digitsValue 16 digits)), s⟩ := by
  have hb : isLineBreak 'u' = false := by decide
  have hd : 'u'.isDigit = false := by decide
  have hy : ('\x7d' :: s).head?.all fun c => !isHexDigit c := rfl
  have hc : closingBrace ('\x7d' :: s) = ['\x7d'] := rfl
  simp [escape, letterEscape?, hb, hd, hc, takeWhile_append_of_head? hdigits hy,
    dropWhile_append_of_head? hdigits hy, scalarOrReplacement, hvalue]

theorem escape_skip {blank : List Char} (hblank : ∀ c ∈ blank, isSpace c)
    (hs : s.head?.all fun c => !isSpace c) :
    escape ('z' :: (blank ++ s)) = ⟨'z' :: blank, [], s⟩ := by
  have hb : isLineBreak 'z' = false := by decide
  simp [escape, letterEscape?, hb, takeWhile_append_of_head? hblank hs,
    dropWhile_append_of_head? hblank hs]

end Escape

namespace Piece

variable {quote : Char}

def text : Piece quote → List Char
  | plain c _ => [c]
  | byte c _ _ => ['\\', c]
  | lineBreak s _ => '\\' :: s
  | hex high low _ _ => ['\\', 'x', high, low]
  | decimal first digits _ _ _ _ => '\\' :: first :: digits
  | scalar digits _ _ _ => '\\' :: 'u' :: '\x7b' :: (digits ++ ['\x7d'])
  | skip blank _ => '\\' :: 'z' :: blank

def bytes : Piece quote → List UInt8
  | plain c _ => String.utf8EncodeChar c
  | byte _ b _ => [b]
  | lineBreak _ _ => [0x0A]
  | hex high low _ _ => [UInt8.ofNat (digitsValue 16 [high, low])]
  | decimal first digits _ _ _ _ => [UInt8.ofNat (digitsValue 10 (first :: digits))]
  | scalar digits _ _ _ => String.utf8EncodeChar (Char.ofNat (digitsValue 16 digits))
  | skip _ _ => []

-- Whether a piece is over in front of a character: one or two digits are not in front of another
-- digit, and skipped white space is not in front of more of it.
def endsBefore : Piece quote → Option Char → Bool
  | decimal _ digits _ _ _ _, next => digits.length = 2 || next.all fun c => !c.isDigit
  | skip _ _, next => next.all fun c => !isSpace c
  | _, _ => true

-- Pieces that may stand in a row.
def Row (pieces : List (Piece quote)) : Prop :=
  pieces.IsChain fun p next => p.endsBefore next.text.head?

instance (pieces : List (Piece quote)) : Decidable (Row pieces) :=
  inferInstanceAs (Decidable (pieces.IsChain fun p next => p.endsBefore next.text.head?))

theorem text_ne_nil (p : Piece quote) : p.text ≠ [] := by
  cases p <;> simp [text]

-- No piece starts with a line break.
theorem head?_text (p : Piece quote) : p.text.head?.all fun c => !isLineBreak c := by
  cases p with
  | plain c h =>
    simp only [List.mem_cons, List.not_mem_nil, or_false, not_or] at h
    simp [text, isLineBreak, h]
  | _ => rfl

-- A piece is a character that denotes itself or an escape that is read to its end.
theorem read (p : Piece quote) :
    (∃ c, p.text = [c] ∧ p.bytes = String.utf8EncodeChar c ∧ isOrdinary quote c) ∨
    ∃ e, p.text = '\\' :: e ∧ ∀ s : List Char, p.endsBefore s.head? →
      (s.head?.all fun c => !isLineBreak c) → escape (e ++ s) = ⟨e, p.bytes, s⟩ := by
  cases p with
  | plain c h =>
    simp only [List.mem_cons, List.not_mem_nil, or_false, not_or] at h
    exact .inl ⟨c, rfl, rfl, by simp [isOrdinary, isLineBreak, h]⟩
  | byte c b h => exact .inr ⟨_, rfl, fun s _ _ => escape_byte h s⟩
  | lineBreak e h => exact .inr ⟨_, rfl, fun s _ hs => escape_lineBreak h hs⟩
  | hex high low hhigh hlow => exact .inr ⟨_, rfl, fun s _ _ => escape_hex hhigh hlow s⟩
  | decimal first digits hfirst hdigits hlength hvalue =>
    refine .inr ⟨_, rfl, fun s hs _ => escape_decimal hfirst hdigits hlength hvalue ?_⟩
    simpa [endsBefore] using hs
  | scalar digits hne hdigits hvalue =>
    refine .inr ⟨_, rfl, fun s _ _ => ?_⟩
    rw [List.cons_append, List.cons_append, List.append_assoc, List.singleton_append]
    exact escape_scalar hdigits hvalue s
  | skip blank h => exact .inr ⟨_, rfl, fun s hs _ => escape_skip h hs⟩

-- A quote ends every piece.
theorem endsBefore_quote (hq : isQuote quote) (p : Piece quote) : p.endsBefore (some quote) := by
  rcases eq_of_isQuote hq with rfl | rfl <;> cases p <;> simp [endsBefore, isSpace]

variable {p : Piece quote} {pieces : List (Piece quote)}

-- What follows a piece in a literal ends it, be it another piece or the closing quote.
theorem endsBefore_rest (hq : isQuote quote) (h : Row (p :: pieces)) (y : List Char) :
    p.endsBefore (pieces.flatMap text ++ quote :: y).head? := by
  cases pieces with
  | nil => exact endsBefore_quote hq p
  | cons next pieces =>
    have hn := (List.isChain_cons.mp h).1 next rfl
    have hne := next.text_ne_nil
    rwa [List.flatMap_cons, List.append_assoc, List.head?_append_of_ne_nil _ hne]

theorem head?_rest (hq : isQuote quote) (pieces : List (Piece quote)) (y : List Char) :
    (pieces.flatMap text ++ quote :: y).head?.all fun c => !isLineBreak c := by
  cases pieces with
  | nil =>
    rcases eq_of_isQuote hq with rfl | rfl <;> rfl
  | cons next pieces =>
    have hne := next.text_ne_nil
    rw [List.flatMap_cons, List.append_assoc, List.head?_append_of_ne_nil _ hne]
    exact next.head?_text

-- A row of pieces is read up to the closing quote, whatever follows.
theorem shortBody_row (hq : isQuote quote) (h : Row pieces) (y : List Char) :
    shortBody quote (pieces.flatMap text ++ quote :: y) =
        ⟨pieces.flatMap text ++ [quote], pieces.flatMap bytes, y⟩ ∧
      shortCloses quote (pieces.flatMap text ++ quote :: y) := by
  induction pieces with
  | nil =>
    have hne : ¬isOrdinary quote quote := by simp [isOrdinary_quote]
    have hd := List.dropWhile_cons_of_neg (l := y) hne
    have ht := List.takeWhile_cons_of_neg (l := y) hne
    rw [List.flatMap_nil, List.nil_append, shortBody_eq_of_dropWhile_cons hd,
      shortCloses_eq_of_dropWhile_cons hd, ht]
    simp [encode]
  | cons p pieces ih =>
    obtain ⟨hbody, hcloses⟩ := ih (List.isChain_cons.mp h).2
    rw [List.flatMap_cons, List.append_assoc]
    rcases p.read with ⟨c, htext, hbytes, hc⟩ | ⟨e, htext, he⟩
    case inl =>
      obtain ⟨hb, hs⟩ := shortBody_cons_ordinary (s := pieces.flatMap text ++ quote :: y) hc
      rw [htext, List.singleton_append, hb, hs, hbody, List.flatMap_cons, hbytes]
      exact ⟨rfl, hcloses⟩
    case inr =>
      have hread := he _ (endsBefore_rest hq h y) (head?_rest hq pieces y)
      obtain ⟨hb, hs⟩ := shortBody_backslash hq (e ++ (pieces.flatMap text ++ quote :: y))
      rw [htext, List.cons_append, hb, hs, hread, hbody]
      exact ⟨by simp, hcloses⟩

-- A literal in quotes.
def literal (pieces : List (Piece quote)) : List Char :=
  quote :: (pieces.flatMap text ++ [quote])

theorem literal_append (pieces : List (Piece quote)) (y : List Char) :
    literal pieces ++ y = quote :: (pieces.flatMap text ++ quote :: y) := by
  simp [literal]

theorem bare_literal (hq : isQuote quote) (pieces : List (Piece quote)) (y : List Char) :
    Bare (literal pieces ++ y) := by
  rw [literal_append]
  rcases eq_of_isQuote hq with rfl | rfl <;> exact ⟨by simp [isSpace], by simp⟩

theorem begins_literal (hq : isQuote quote) (h : Row pieces) (y : List Char) :
    Begins (literal pieces ++ y) (.str (String.ofList (decodeLossy (pieces.flatMap bytes)))) y := by
  obtain ⟨hbody, hcloses⟩ := shortBody_row hq h y
  have hbare := bare_literal hq pieces y
  rw [literal_append] at hbare ⊢
  refine .of_bare hbare ?_ ?_ ?_
  · rw [token_short hq, hbody]
  · rw [token_short hq, hbody]
  · rw [tokenCloses_short hq]
    exact hcloses

end Piece

-- A literal in quotes is read as one string, which holds the bytes that its pieces denote. What
-- follows is read as if it stood on a line of its own.
theorem lex_literal_append {quote : Char} (hq : isQuote quote) {pieces : List (Piece quote)}
    (h : Piece.Row pieces) (rest : String) :
    let literal := Piece.literal pieces
    lex (String.ofList literal ++ rest) =
      ⟨.str (String.ofList (decodeLossy (pieces.flatMap Piece.bytes))), 0, size literal⟩ ::
        (lex ("\n" ++ rest)).map (Token.shift (size literal - 1)) := by
  have hbare := Piece.bare_literal hq pieces rest.toList
  refine (Piece.begins_literal hq h rest.toList).lex_append hbare ?_ (List.cons_ne_nil _ _)
  rw [Piece.literal_append]
  rcases eq_of_isQuote hq with rfl | rfl <;> exact preamble_cons (by decide) (by decide) _

-- Pieces of every kind. Two bytes make one character together, a third is part of none.
def mixedPieces : List (Piece '"') :=
  [.plain '\'' (by decide), .byte 'n' 0x0A (by decide), .lineBreak ['\r', '\n'] (by decide),
    .decimal '1' ['9', '5'] (by decide) (List.all_eq_true.mp rfl) (by decide) (by decide),
    .hex 'A' '9' (by decide) (by decide), .hex 'f' 'F' (by decide) (by decide),
    .decimal '7' [] (by decide) (List.all_eq_true.mp rfl) (by decide) (by decide),
    .scalar ['0', '0', '0', '0', '0', '0', '1', 'F', '6', '0', '0'] (by decide)
      (List.all_eq_true.mp rfl) (by decide),
    .skip [' ', '\n'] (List.all_eq_true.mp rfl), .plain 'é' (by decide)]

theorem lex_literal_append_mixed :
    isQuote '"' ∧ Piece.Row mixedPieces ∧
      lex (String.ofList (Piece.literal mixedPieces) ++ "x'b'") =
        [⟨.str "'\n\né\uFFFD\x07😀é", 0, 43⟩, ⟨.name "x", 43, 44⟩, ⟨.str "b", 44, 47⟩] := by
  have hquote : isQuote '"' := by decide
  have hrow : Piece.Row mixedPieces := by decide
  exact ⟨hquote, hrow, (lex_literal_append hquote hrow "x'b'").trans (by decide +kernel)⟩

end LuaBundle.Lua

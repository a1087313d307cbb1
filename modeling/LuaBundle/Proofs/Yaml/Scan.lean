import LuaBundle.Proofs.Yaml.Scalar
import LuaBundle.Yaml.Tokens

namespace LuaBundle.Yaml

section Marks

namespace Mark

variable {m : Mark} {w r : List Char}

theorem advance_line_feed :
    m.advance ('\n' :: r) = advance ⟨m.index + 1, m.line + 1, 0⟩ r := by
  rw [advance]
  · rfl
  · simp

theorem advance_append (hw : ∀ c ∈ w, isBreak c = false) :
    m.advance (w ++ r) = advance ⟨m.index + w.length, m.line, m.column + w.length⟩ r := by
  induction w generalizing m with
  | nil => rfl
  | cons c w ih =>
    obtain ⟨hc, hw⟩ := List.forall_mem_cons.mp hw
    rw [List.cons_append, advance]
    · rw [hc, if_neg Bool.false_ne_true, ih hw, List.length_cons, Nat.add_right_comm,
        Nat.add_right_comm m.column]
      rfl
    · rintro r' rfl
      cases hc

theorem advance_line (hw : ∀ c ∈ w, isBreak c = false) :
    m.advance w = ⟨m.index + w.length, m.line, m.column + w.length⟩ := by
  have hadvance := advance_append (m := m) (r := []) hw
  rwa [List.append_nil] at hadvance

theorem advance_pad {k : Nat} : m.advance (pad k) = ⟨m.index + k, m.line, m.column + k⟩ := by
  have hpad : ∀ c ∈ pad k, isBreak c = false := fun c hc => List.eq_of_mem_replicate hc ▸ rfl
  rw [advance_line hpad, pad, List.length_replicate]

theorem line_le_advance : m.line ≤ (m.advance r).line := by
  induction m, r using advance.induct with
  | case1 => exact Nat.le_refl _
  | case2 m r ih => rw [advance]; exact Nat.le_of_succ_le ih
  | case3 m c r hreturn hc ih =>
    rw [advance, if_pos hc]
    · exact Nat.le_of_succ_le ih
    · exact hreturn
  | case4 m c r hreturn hc ih =>
    rw [advance, if_neg hc]
    · exact ih
    · exact hreturn

end Mark
end Marks

section Words

variable {w : List Char}

-- A name that keys of mappings have.
structure IsWord (w : List Char) : Prop where
  ne_nil : w ≠ []
  letters : ∀ c ∈ w, c.isAlpha
  short : w.length ≤ Reader.maxKeyLength

instance : Decidable (IsWord w) :=
  decidable_of_iff (w ≠ [] ∧ w.all Char.isAlpha ∧ w.length ≤ Reader.maxKeyLength)
    ⟨fun ⟨hne, hletters, hshort⟩ => ⟨hne, List.all_eq_true.mp hletters, hshort⟩,
      fun ⟨hne, hletters, hshort⟩ => ⟨hne, List.all_eq_true.mpr hletters, hshort⟩⟩

theorem ne_of_isAlpha {c d : Char} (hc : c.isAlpha) (hd : d.isAlpha = false) : c ≠ d := by
  rintro rfl
  exact Bool.noConfusion (hc.symm.trans hd)

theorem isGap_of_isAlpha {c : Char} (hc : c.isAlpha) : isGap c = false := by
  simp [isGap, isBlank, isBreak, ne_of_isAlpha hc]

theorem hasIndicator_of_letters (hw : ∀ c ∈ w, c.isAlpha) : Style.hasIndicator w = false := by
  induction w with
  | nil => rfl
  | cons c w ih =>
    obtain ⟨hc, hw⟩ := List.forall_mem_cons.mp hw
    have hcolon : c ≠ ':' := ne_of_isAlpha hc rfl
    simp [Style.hasIndicator, hcolon, isGap_of_isAlpha hc, ih hw]

theorem IsWord.isPlain (h : IsWord w) : IsPlain w where
  ne_nil := h.ne_nil
  chars c hc := .inr (isGap_of_isAlpha (h.letters c hc))
  begins := by
    obtain ⟨c, w, rfl⟩ := List.exists_cons_of_ne_nil h.ne_nil
    have hc := h.letters c List.mem_cons_self
    have hhash : c ≠ '#' := ne_of_isAlpha hc rfl
    have hmark : c ≠ byteOrderMark := ne_of_isAlpha hc rfl
    simp [Begins, isGap_of_isAlpha hc, hhash, hmark]
  last hlast := absurd (h.letters _ (List.mem_of_getLast? hlast)) (by decide)
  starts := by
    obtain ⟨c, w, rfl⟩ := List.exists_cons_of_ne_nil h.ne_nil
    have hne {d : Char} : d.isAlpha = false → c ≠ d := ne_of_isAlpha (h.letters c List.mem_cons_self)
    simp [Style.startsAsIndicator, hne]
  noIndicator := hasIndicator_of_letters h.letters

theorem isAllowed_word (h : IsWord w) : ∀ c ∈ w, isAllowed c := by
  intro c hc
  have hletter : (decide ('A'.val ≤ c.val ∧ c.val ≤ 'Z'.val) ||
      (decide ('a'.val ≤ c.val) && decide (c.val ≤ 'z'.val))) = true := h.letters c hc
  simp only [Bool.or_eq_true, Bool.and_eq_true, decide_eq_true_eq, UInt32.le_iff_toNat_le]
    at hletter
  have hbounds : 'A'.val.toNat = 65 ∧ 'Z'.val.toNat = 90 ∧ 'a'.val.toNat = 97 ∧
      'z'.val.toNat = 122 := by decide
  have hvalue : c.toNat = c.val.toNat := rfl
  simp only [isAllowed, Bool.or_eq_true, Bool.and_eq_true, decide_eq_true_eq]
  omega

end Words

namespace Reader

variable {m : Mark} {T : List Token} {I : List Nat} {o : Option Candidate} {keyAllowed : Bool}
  {s : Reader} {r : List Char} {i k : Nat}

-- A reader between two tokens outside of flow collections, where nothing can become a key.
def resting (m : Mark) (T : List Token) (I : List Nat) (keyAllowed : Bool) : Reader :=
  ⟨m, T, I, 0, [none], keyAllowed⟩

@[simp]
theorem resting_inFlow : (resting m T I keyAllowed).inFlow = false :=
  rfl

@[simp]
theorem resting_keyAllowed : (resting m T I keyAllowed).keyAllowed = keyAllowed :=
  rfl

-- What a reader that stands at a token makes of it and the text behind it.
def readFrom (here : Reader) : List Char → Except Problem (List Token)
  | [] => do
    let s ← here.closeAllBlocks.dropCandidate
    return (s.emit .streamEnd).tokens.reverse
  | c :: r => do
    let (next, n) ← here.take c r
    { next with mark := here.mark.advance (c :: r.take n) }.readAll (r.drop n)

theorem readAll_eq (s : Reader) (text : List Char) :
    s.readAll text =
      let skipped := skip s.inFlow s.keyAllowed (s.mark.column = 0) false text
      (s.advance text skipped.1 skipped.2).bind fun here => here.readFrom skipped.1 := by
  rw [readAll]
  simp only
  split
  case h_1 h =>
    simp only [h, readFrom]
    rfl
  case h_2 h =>
    simp only [h, readFrom]
    rfl

theorem readFrom_of_take {here next : Reader} {c : Char} {w : List Char}
    (h : here.take c (w ++ r) = .ok (next, w.length)) :
    here.readFrom (c :: (w ++ r)) =
      readAll { next with mark := here.mark.advance (c :: w) } r := by
  have hread : here.readFrom (c :: (w ++ r)) =
      readAll { next with mark := here.mark.advance (c :: (w ++ r).take w.length) }
        ((w ++ r).drop w.length) := by
    rw [readFrom, h]
    rfl
  rw [hread, List.take_left, List.drop_left]

theorem skip_begins {atStart : Bool} (hr : Begins r) :
    skip false keyAllowed atStart false r = (r, keyAllowed) := by
  cases r with
  | nil => rfl
  | cons c r =>
    simp only [Begins, List.head?_cons, Option.all_some, Bool.and_eq_true, Bool.not_eq_true',
      decide_eq_true_eq] at hr
    obtain ⟨⟨hgap, hhash⟩, hmark⟩ := hr
    obtain ⟨hblank, hbreak⟩ := Bool.or_eq_false_iff.mp hgap
    obtain ⟨hspace, htab⟩ := Bool.or_eq_false_iff.mp hblank
    simp only [decide_eq_false_iff_not] at hspace htab
    simp [skip, hbreak, hspace, htab, hhash, hmark]

theorem skip_pad {atStart : Bool} (hr : Begins r) :
    skip false keyAllowed atStart false (pad k ++ r) = (r, keyAllowed) := by
  induction k generalizing atStart with
  | zero => exact skip_begins hr
  | succ k ih =>
    have hspace : isBreak ' ' = false := rfl
    rw [pad, List.replicate_succ, List.cons_append, skip, ← pad]
    simpa [hspace] using ih

theorem head?_all_mono {j : Nat} (h : I.head?.all (· ≤ k)) (hk : k ≤ j) : I.head?.all (· ≤ j) := by
  cases I with
  | nil => rfl
  | cons i I =>
    have h : i ≤ k := by simpa using h
    simpa using Nat.le_trans h hk

theorem closeBlocks_of_le (h : s.indents.head?.all (· ≤ k)) : s.closeBlocks k = s := by
  obtain ⟨m, T, I, n, candidates, keyAllowed⟩ := s
  rw [closeBlocks]
  split
  case isTrue => rfl
  case isFalse =>
    cases I with
    | nil => rfl
    | cons i I =>
      have h : i ≤ k := by simpa using h
      rw [closeBlocks.go, if_neg (Nat.not_lt.mpr h)]

theorem closeBlocks_of_lt (h : k < i) :
    (resting m T (i :: I) keyAllowed).closeBlocks k =
      (resting m (.blockEnd :: T) I keyAllowed).closeBlocks k := by
  have go (T' : List Token) (I' : List Nat) :
      closeBlocks.go (resting m T (i :: I) keyAllowed) k T' I' =
        closeBlocks.go (resting m (.blockEnd :: T) I keyAllowed) k T' I' := by
    induction I' generalizing T' with
    | nil => rfl
    | cons j J ih =>
      rw [closeBlocks.go, closeBlocks.go, ih]
      rfl
  have hclose : closeBlocks.go (resting m T (i :: I) keyAllowed) k T (i :: I) =
      closeBlocks.go (resting m T (i :: I) keyAllowed) k (.blockEnd :: T) I := by
    rw [closeBlocks.go, if_pos h]
  exact hclose.trans (go (.blockEnd :: T) I)

-- A candidate that cannot become a key any more and need not.
theorem dropStale_of_stale (h : ∀ c ∈ o, c.isRequired = false ∧ c.mark.line < m.line) :
    dropStale ⟨m, T, I, 0, [o], keyAllowed⟩ = .ok (resting m T I keyAllowed) := by
  cases o with
  | none => rfl
  | some c =>
    obtain ⟨hrequired, hline⟩ := h c rfl
    simp [dropStale, resting, hrequired, Nat.not_le.mpr hline]

theorem dropStale_of_fresh {n : Nat} {os : List (Option Candidate)}
    (h : ∀ o ∈ os, ∀ c ∈ o, m.line ≤ c.mark.line ∧ m.index ≤ c.mark.index + maxKeyLength) :
    dropStale ⟨m, T, I, n, os, keyAllowed⟩ = .ok ⟨m, T, I, n, os, keyAllowed⟩ := by
  have hfresh (o) (ho : o ∈ os) (c) (hc : c ∈ o) : (decide (c.mark.line < m.line) ||
      decide (c.mark.index + maxKeyLength < m.index)) = false := by
    obtain ⟨hline, hindex⟩ := h o ho c hc
    simp [hline, hindex]
  have hkept : (os.map (·.filter fun c => !(decide (c.mark.line < m.line) ||
      decide (c.mark.index + maxKeyLength < m.index)))) = os := by
    refine (List.map_congr_left fun o ho => ?_).trans (List.map_id os)
    cases o with
    | none => rfl
    | some c => simp only [Option.filter, hfresh _ ho c rfl, Bool.not_false, if_true, id]
  have hnone : os.any (fun o => o.any fun c => c.isRequired && (decide (c.mark.line < m.line) ||
      decide (c.mark.index + maxKeyLength < m.index))) = false := by
    rw [List.any_eq_false]
    intro o ho
    cases o with
    | none => simp
    | some c => simp only [Option.any, hfresh _ ho c rfl, Bool.and_false]; simp
  simp only [dropStale, hnone, hkept]
  rfl

theorem readAll_pad (hr : Begins r) :
    (resting m T I keyAllowed).readAll (pad k ++ r) =
      ((resting ⟨m.index + k, m.line, m.column + k⟩ T I keyAllowed).closeBlocks
        (m.column + k)).readFrom r := by
  have htake : (pad k ++ r).take ((pad k ++ r).length - r.length) = pad k := by simp
  have hadvance : (resting m T I keyAllowed).advance (pad k ++ r) r keyAllowed =
      .ok ((resting ⟨m.index + k, m.line, m.column + k⟩ T I keyAllowed).closeBlocks
        (m.column + k)) := by
    simp only [advance, resting, htake, Mark.advance_pad]
    rw [dropStale_of_stale (by simp)]
    rfl
  simp only [readAll_eq, resting_inFlow, resting_keyAllowed, skip_pad hr, hadvance]
  rfl

theorem readAll_close (hr : Begins r) (h : m.column + k < i) :
    (resting m T (i :: I) keyAllowed).readAll (pad k ++ r) =
      (resting m (.blockEnd :: T) I keyAllowed).readAll (pad k ++ r) := by
  rw [readAll_pad hr, readAll_pad hr, closeBlocks_of_lt h]

-- A reader that stands at a token already.
theorem readAll_of_begins (hr : skip s.inFlow s.keyAllowed (s.mark.column = 0) false r =
      (r, s.keyAllowed)) (hstale : s.dropStale = .ok s) (h : s.indents.head?.all (· ≤ s.mark.column)) :
    s.readAll r = s.readFrom r := by
  have hadvance : s.advance r r s.keyAllowed = .ok s := by
    simp only [advance, Nat.sub_self, List.take_zero, Mark.advance]
    rw [hstale]
    exact congrArg Except.ok (closeBlocks_of_le h)
  rw [readAll_eq]
  simp only [hr, hadvance]
  rfl

theorem advance_of_stale {text rest : List Char} {allowed : Bool}
    (h : ∀ c ∈ o, c.isRequired = false ∧ c.mark.line <
      (m.advance (text.take (text.length - rest.length))).line) :
    advance ⟨m, T, I, 0, [o], keyAllowed⟩ text rest allowed =
      (resting m T I keyAllowed).advance text rest allowed := by
  simp only [advance, resting]
  rw [dropStale_of_stale h, dropStale_of_stale (by simp)]

theorem readAll_of_stale (h : ∀ c ∈ o, c.isRequired = false ∧ c.mark.line < m.line) :
    readAll ⟨m, T, I, 0, [o], keyAllowed⟩ r = (resting m T I keyAllowed).readAll r := by
  rw [readAll_eq, readAll_eq]
  simp only
  rw [advance_of_stale fun c hc =>
    ⟨(h c hc).1, Nat.lt_of_lt_of_le (h c hc).2 Mark.line_le_advance⟩]
  rfl

-- A line that ends leaves nothing behind but the tokens in it.
theorem readAll_line_feed (h : ∀ c ∈ o, c.isRequired = false ∧ c.mark.line ≤ m.line) :
    readAll ⟨m, T, I, 0, [o], keyAllowed⟩ ('\n' :: r) =
      (resting ⟨m.index + 1, m.line + 1, 0⟩ T I true).readAll r := by
  have hskip (atStart : Bool) : skip false keyAllowed atStart false ('\n' :: r) =
      skip false true true false r := by
    rw [skip, if_pos (by rfl)]
    simp
  rw [readAll_eq, readAll_eq]
  simp only [inFlow, resting, hskip, Nat.lt_irrefl, decide_false, decide_true]
  generalize hrest : skip false true true false r = skipped
  have hlength : skipped.1.length ≤ r.length := hrest ▸ length_skip_le false true true false r
  have htake : ('\n' :: r).take (('\n' :: r).length - skipped.1.length) =
      '\n' :: r.take (r.length - skipped.1.length) := by
    rw [List.length_cons, Nat.succ_sub hlength, List.take_succ_cons]
  have hline : (⟨m.index + 1, m.line + 1, 0⟩ : Mark).line ≤
      (m.advance (('\n' :: r).take (('\n' :: r).length - skipped.1.length))).line := by
    rw [htake, Mark.advance_line_feed]
    exact Mark.line_le_advance
  rw [advance_of_stale fun c hc =>
    ⟨(h c hc).1, Nat.lt_of_lt_of_le (Nat.lt_succ_of_le (h c hc).2) hline⟩]
  simp only [advance, resting, htake, Mark.advance_line_feed]

theorem resting_line_feed :
    (resting m T I keyAllowed).readAll ('\n' :: r) =
      (resting ⟨m.index + 1, m.line + 1, 0⟩ T I true).readAll r :=
  readAll_line_feed (by simp)

-- After the last line the tokens are complete.
theorem readAll_nil (h : I.head?.all (· ≤ m.column)) :
    (resting m T I keyAllowed).readAll [] =
      .ok (((I.map fun _ => Token.blockEnd) ++ T).reverse ++ [.streamEnd]) := by
  have hread : (resting m T I keyAllowed).readAll (pad 0 ++ []) = _ := readAll_pad (by rfl)
  rw [closeBlocks_of_le h] at hread
  rw [← List.reverse_cons]
  exact hread

section Plain

variable {w : List Char} {c d : Char}

-- What stands behind a plain scalar: the end of its line, or a colon.
def EndsPlain (d : Char) : Prop :=
  d = '\n' ∨ d = ':'

theorem atDocumentMark_append (h : Style.startsAsIndicator w = false) (hd : EndsPlain d) :
    atDocumentMark (w ++ d :: r) = false := by
  have hd : d ≠ '-' ∧ d ≠ '.' := by
    rcases hd with rfl | rfl
    all_goals decide
  match w with
  | [] | [_] | [_, _] => simp [atDocumentMark, hd]
  | a :: b :: c :: w =>
    simp only [Style.startsAsIndicator, Bool.or_eq_false_iff] at h
    simpa [atDocumentMark] using fun hmark => absurd hmark (by simpa using h.1)

-- What a plain scalar does not start with.
theorem ne_of_startsAsIndicator (h : Style.startsAsIndicator (c :: w) = false) :
    ∀ x ∈ "#,[]\x7b\x7d&*!|>'\"%@`".toList, c ≠ x := by
  rintro x hx rfl
  have hquestion : c ≠ '?' := ne_of_mem_of_not_mem hx (by decide)
  have hdash : c ≠ '-' := ne_of_mem_of_not_mem hx (by decide)
  have hcontains : c ∉ "#,[]\x7b\x7d&*!|>'\"%@`".toList := by
    simp only [Style.startsAsIndicator, hquestion, hdash, Bool.or_eq_false_iff] at h
    simpa using h.2
  exact hcontains hx

-- Signs that a gap makes indicators stand in front of something else in a plain scalar.
theorem atGap_of_sign (hs : IsPlain (c :: w)) (hc : c = '-' ∨ c = '?' ∨ c = ':') :
    atGap (w ++ d :: r) = false := by
  have hw : atGap w = false := by
    rcases hc with rfl | rfl | rfl
    case inl =>
      have hstarts := hs.starts
      simp only [Style.startsAsIndicator, Bool.or_eq_false_iff] at hstarts
      simpa using hstarts.2
    case inr.inl =>
      have hstarts := hs.starts
      simp only [Style.startsAsIndicator, Bool.or_eq_false_iff] at hstarts
      simpa using hstarts.2
    case inr.inr =>
      have hindicator := hs.noIndicator
      simp only [Style.hasIndicator, Bool.or_eq_false_iff] at hindicator
      simpa using hindicator.1.1
  cases w with
  | nil => cases hw
  | cons => exact hw

theorem startsPlain_of_isPlain (hs : IsPlain (c :: w)) : startsPlain false c (w ++ d :: r) := by
  by_cases hc : c = '-' ∨ c = '?' ∨ c = ':'
  case pos =>
    have hgap := atGap_of_sign (d := d) (r := r) hs hc
    have hblank : (w ++ d :: r).head?.any isBlank = false := by
      cases h : (w ++ d :: r).head? with
      | none => rfl
      | some x =>
        simp only [atGap, h, Option.all_some] at hgap
        exact (Bool.or_eq_false_iff.mp hgap).1
    rcases hc with rfl | rfl | rfl
    all_goals simp only [startsPlain, hblank, hgap]
    all_goals decide
  case neg =>
    have hgap : isGap c = false := hs.begins.isGap
    have hother : ∀ x ∈ "-?:,[]\x7b\x7d#&*!|>'\"%@`".toList,
        x = '-' ∨ x = '?' ∨ x = ':' ∨ x ∈ "#,[]\x7b\x7d&*!|>'\"%@`".toList := by simp +contextual
    have hindicator : isIndicator c = false := by
      refine eq_false_of_ne_true fun h => ?_
      have hmem := List.contains_iff_mem.mp h
      rcases hother c hmem with h | h | h | h
      · exact hc (.inl h)
      · exact hc (.inr (.inl h))
      · exact hc (.inr (.inr h))
      · exact ne_of_startsAsIndicator hs.starts c h rfl
    simp [startsPlain, hgap, hindicator]

theorem take_plain (hs : IsPlain (c :: w)) (hd : EndsPlain d) :
    (resting m T I keyAllowed).take c (w ++ d :: r) =
      (resting m T I keyAllowed).scalar true (w ++ d :: r)
        (readPlain false (resting m T I keyAllowed).textIndent (c :: w ++ d :: r)) := by
  have hmark : atDocumentMark (c :: (w ++ d :: r)) = false :=
    atDocumentMark_append hs.starts hd
  have hplain : startsPlain false c (w ++ d :: r) := startsPlain_of_isPlain hs
  have hne := ne_of_startsAsIndicator hs.starts
  simp only [String.reduceToList, List.mem_cons, List.not_mem_nil, or_false, ne_eq,
    forall_eq_or_imp, forall_eq] at hne
  have hsign := atGap_of_sign (d := d) (r := r) hs
  have hdash : ¬(c = '-' ∧ atGap (w ++ d :: r)) := fun h => by simp [hsign (.inl h.1)] at h
  have hquestion : ¬(c = '?' ∧ atGap (w ++ d :: r)) :=
    fun h => by simp [hsign (.inr (.inl h.1))] at h
  have hcolon : ¬(c = ':' ∧ atGap (w ++ d :: r)) :=
    fun h => by simp [hsign (.inr (.inr h.1))] at h
  simp [take, hmark, hplain, hne, hdash, hquestion, hcolon]

end Plain

section Scalar

variable {w text : List Char} {isPlain isBroken : Bool}

-- What a token may become a key by.
def candidate (m : Mark) (T : List Token) (I : List Nat) (keyAllowed : Bool) : Option Candidate :=
  if keyAllowed then some ⟨m, T.length, I.head? = some m.column⟩ else none

theorem addCandidate_resting :
    (resting m T I keyAllowed).addCandidate =
      .ok ⟨m, T, I, 0, [candidate m T I keyAllowed], keyAllowed⟩ := by
  cases keyAllowed
  · rfl
  · simp [addCandidate, resting, dropCandidate, candidate, inFlow, pure, Except.pure, bind,
      Except.bind]

theorem scalar_resting {found : Except Problem Scanned} {rest : List Char}
    (h : found = .ok ⟨text, isBroken, rest⟩) :
    (resting m T I keyAllowed).scalar isPlain r found =
      .ok (⟨m, .scalar isPlain (String.ofList text) :: T, I, 0, [candidate m T I keyAllowed],
        isBroken⟩, r.length - rest.length) := by
  rw [scalar, addCandidate_resting, h]
  rfl

-- Behind the column of the collection around, a token need not be a key.
theorem isRequired_candidate (h : i < m.column) :
    ∀ c ∈ candidate m T (i :: I) keyAllowed, c.isRequired = false ∧ c.mark = m := by
  intro c hc
  rw [candidate] at hc
  split at hc
  · obtain rfl : _ = c := by simpa using hc
    simpa using Nat.ne_of_lt h
  · cases hc

theorem readFrom_plain (hs : IsPlain text) (hi : i < m.column) (hk : k ≤ i) (hr : Begins r) :
    ∃ m' : Mark, m'.column = 0 ∧
      (resting m T (i :: I) keyAllowed).readFrom (text ++ '\n' :: (pad k ++ r)) =
        (resting m' (.scalar true (String.ofList text) :: T) (i :: I) true).readAll (pad k ++ r) := by
  obtain ⟨c, w, rfl⟩ := List.exists_cons_of_ne_nil hs.ne_nil
  have hfound : readPlain false (resting m T (i :: I) keyAllowed).textIndent
      (c :: w ++ '\n' :: (pad k ++ r)) = .ok ⟨c :: w, true, r⟩ :=
    readPlain_line hs (Nat.lt_succ_of_le hk) hr
  have hsplit : w ++ '\n' :: (pad k ++ r) = w ++ '\n' :: pad k ++ r := by simp
  have htake := (take_plain hs (.inl rfl)).trans (scalar_resting hfound)
  rw [hsplit, List.length_append, Nat.add_sub_cancel] at htake
  have hmark : m.advance (c :: w ++ '\n' :: pad k) =
      ⟨m.index + (c :: w).length + 1 + k, m.line + 1, k⟩ := by
    rw [Mark.advance_append hs.line, Mark.advance_line_feed, Mark.advance_pad, Nat.zero_add]
  refine ⟨⟨m.index + (c :: w).length + 1, m.line + 1, 0⟩, rfl, ?_⟩
  rw [List.cons_append, hsplit, readFrom_of_take htake, readAll_pad hr]
  show readAll ⟨m.advance _, _, _, 0, _, true⟩ r = _
  rw [← List.cons_append, hmark, readAll_of_stale]
  · have hread : (resting ⟨m.index + (c :: w).length + 1 + k, m.line + 1, k⟩
        (.scalar true (String.ofList (c :: w)) :: T) (i :: I) true).readAll (pad 0 ++ r) = _ :=
      readAll_pad hr
    simpa [pad] using hread
  · intro d hd
    obtain ⟨hrequired, hm⟩ := isRequired_candidate hi d hd
    exact ⟨hrequired, hm ▸ Nat.lt_succ_self _⟩

theorem take_quoted {q : Char} (hq : q = '\'' ∨ q = '"') :
    (resting m T I keyAllowed).take q r =
      (resting m T I keyAllowed).scalar false r (readQuoted (q = '\'') r) := by
  rcases hq with rfl | rfl
  all_goals simp [take, atDocumentMark]

theorem readFrom_scalar (hs : Spelled text isPlain w) (hi : i < m.column) (hk : k ≤ i)
    (hr : Begins r) :
    ∃ m' : Mark, m'.column = 0 ∧
      (resting m T (i :: I) keyAllowed).readFrom (w ++ '\n' :: (pad k ++ r)) =
        (resting m' (.scalar isPlain (String.ofList text) :: T) (i :: I) true).readAll
          (pad k ++ r) := by
  cases hs with
  | plain hs => exact readFrom_plain hs hi hk hr
  | @quoted q w hq h =>
    have hfound := h ('\n' :: (pad k ++ r)) (by simp)
    have hsplit : w ++ q :: '\n' :: (pad k ++ r) = (w ++ [q]) ++ '\n' :: (pad k ++ r) := by simp
    have htake : (resting m T (i :: I) keyAllowed).take q (w ++ q :: '\n' :: (pad k ++ r)) = _ :=
      (take_quoted hq).trans (scalar_resting hfound)
    rw [hsplit, List.length_append, Nat.add_sub_cancel] at htake
    have hline : ∀ c ∈ candidate m T (i :: I) keyAllowed,
        c.isRequired = false ∧ c.mark.line ≤ (m.advance (q :: (w ++ [q]))).line := by
      intro c hc
      obtain ⟨hrequired, hm⟩ := isRequired_candidate hi c hc
      exact ⟨hrequired, hm ▸ Mark.line_le_advance⟩
    exact ⟨_, rfl, (readFrom_of_take htake).trans (readAll_line_feed hline)⟩

end Scalar

section Indicators

variable {w : List Char}

theorem emitAt_length {front : List Token} {n : Nat} {os : List (Option Candidate)} {t : Token} :
    emitAt ⟨m, front ++ T, I, n, os, keyAllowed⟩ T.length t =
      ⟨m, front ++ t :: T, I, n, os, keyAllowed⟩ := by
  simp only [emitAt, List.length_append, Nat.add_sub_cancel, List.take_left, List.drop_left]

theorem openBlock_of_lt {front : List Token} {os : List (Option Candidate)} {t : Token}
    (h : I.head?.all (· < k)) :
    openBlock ⟨m, front ++ T, I, 0, os, keyAllowed⟩ k T.length t =
      ⟨m, front ++ t :: T, k :: I, 0, os, keyAllowed⟩ := by
  rw [openBlock, emitAt_length]
  simp [inFlow, h]

theorem openBlock_resting {t : Token} (h : I.head?.all (· < k)) :
    (resting m T I keyAllowed).openBlock k T.length t = resting m (t :: T) (k :: I) keyAllowed := by
  have hopen : openBlock ⟨m, [] ++ T, I, 0, [none], keyAllowed⟩ k T.length t = _ :=
    openBlock_of_lt h
  exact hopen

theorem openBlock_of_eq {os : List (Option Candidate)} {position : Nat} {t : Token}
    (h : I.head? = some k) :
    openBlock ⟨m, T, I, 0, os, keyAllowed⟩ k position t = ⟨m, T, I, 0, os, keyAllowed⟩ := by
  simp [openBlock, inFlow, h]

-- The key in front of a colon is the first of a mapping, or one more of the mapping around.
theorem value_of_lt {req : Bool} {m' : Mark} {t : Token} (h : I.head?.all (· < m.column)) :
    value ⟨m', t :: T, I, 0, [some ⟨m, T.length, req⟩], false⟩ =
      .ok (resting m' (.value :: t :: .key :: .blockMapping :: T) (m.column :: I) false) := by
  have hkey : emitAt ⟨m', [t] ++ T, I, 0, [none], false⟩ T.length .key = _ := emitAt_length
  have hopen : openBlock ⟨m', [t, .key] ++ T, I, 0, [none], false⟩ m.column T.length
      .blockMapping = _ := openBlock_of_lt h
  simp only [value]
  rw [← List.singleton_append, hkey]
  exact congrArg (fun s => Except.ok (s.emit .value)) hopen

theorem value_of_eq {req : Bool} {m' : Mark} {t : Token} (h : I.head? = some m.column) :
    value ⟨m', t :: T, I, 0, [some ⟨m, T.length, req⟩], false⟩ =
      .ok (resting m' (.value :: t :: .key :: T) I false) := by
  have hkey : emitAt ⟨m', [t] ++ T, I, 0, [none], false⟩ T.length .key = _ := emitAt_length
  simp only [value]
  rw [← List.singleton_append, hkey, openBlock_of_eq h]
  rfl

theorem take_colon {s' : Reader} (hr : atGap r) (h : s.value = .ok s') :
    s.take ':' r = .ok (s', 0) := by
  simp only [take, atDocumentMark, hr, h]
  simp [bind, Except.bind, pure, Except.pure]

theorem readFrom_key {key : String} {T' : List Token} {I' : List Nat} (hw : IsWord key.toList)
    (hr : atGap r) (hI : I.head?.all (· ≤ m.column))
    (hv : ∀ m' : Mark, value ⟨m', .scalar true key :: T, I, 0, [candidate m T I true], false⟩ =
      .ok (resting m' T' I' false)) :
    ∃ m' : Mark, m.column < m'.column ∧
      (resting m T I true).readFrom (key.toList ++ ':' :: r) =
        (resting m' T' I' false).readAll r := by
  obtain ⟨c, w, hkey⟩ := List.exists_cons_of_ne_nil hw.ne_nil
  obtain rfl : key = String.ofList (c :: w) := by rw [← hkey, String.ofList_toList]
  rw [hkey] at hw ⊢
  have hfound : readPlain false (resting m T I true).textIndent (c :: w ++ ':' :: r) =
      .ok ⟨c :: w, false, ':' :: r⟩ := readPlain_key hw.isPlain hr
  have htake := (take_plain hw.isPlain (.inr rfl)).trans (scalar_resting hfound)
  rw [List.length_append, Nat.add_sub_cancel] at htake
  rw [List.cons_append, readFrom_of_take htake]
  have hmark : m.advance (c :: w) =
      ⟨m.index + (c :: w).length, m.line, m.column + (c :: w).length⟩ :=
    Mark.advance_line hw.isPlain.line
  -- the key is short enough to be kept in mind up to the colon
  have hbehind : readAll ⟨m.advance (c :: w), .scalar true (String.ofList (c :: w)) :: T, I, 0,
      [candidate m T I true], false⟩ (':' :: r) =
      readFrom ⟨m.advance (c :: w), .scalar true (String.ofList (c :: w)) :: T, I, 0,
        [candidate m T I true], false⟩ (':' :: r) := by
    have hshort := hw.short
    refine readAll_of_begins (skip_begins rfl) ?_ ?_
    · refine dropStale_of_fresh fun o ho c hc => ?_
      obtain rfl := List.mem_singleton.mp ho
      obtain rfl : _ = c := Option.some_inj.mp hc
      rw [hmark]
      exact ⟨Nat.le_refl _, Nat.add_le_add_left hshort _⟩
    · rw [hmark]
      exact head?_all_mono hI (Nat.le_add_right ..)
  have hcolon := readFrom_of_take (w := []) (take_colon hr (hv (m.advance (c :: w))))
  refine ⟨_, ?_, hbehind.trans hcolon⟩
  show m.column < ((m.advance (c :: w)).advance [':']).column
  rw [Mark.advance_line (by simp [isBreak]), hmark]
  show m.column < m.column + (c :: w).length + 1
  omega

theorem readFrom_dash {T' : List Token} {I' : List Nat} (hr : atGap r)
    (hopen : (resting m T I true).openBlock m.column T.length .blockSequence =
      resting m T' I' true) :
    ∃ m' : Mark, m'.column = m.column + 1 ∧
      (resting m T I true).readFrom ('-' :: r) =
        (resting m' (.blockEntry :: T') I' true).readAll r := by
  have hmark : atDocumentMark ('-' :: r) = false := by
    cases r with
    | nil => rfl
    | cons c r =>
      have hdash : c ≠ '-' := by
        rintro rfl
        cases hr
      simp [atDocumentMark, hdash]
  have hopened : (resting m T I true).openEntry .blockSequence .misplacedEntry =
      .ok (resting m T' I' true) := congrArg Except.ok hopen
  have htake : (resting m T I true).take '-' ([] ++ r) =
      .ok (resting m (.blockEntry :: T') I' true, 0) := by
    simp only [List.nil_append, take, hmark, hr, hopened]
    simp
    rfl
  refine ⟨_, ?_, readFrom_of_take htake⟩
  rfl

theorem flowStart_resting {t : Token} :
    (resting m T I keyAllowed).flowStart t =
      .ok ⟨m, t :: T, I, 1, [none, candidate m T I keyAllowed], true⟩ := by
  rw [flowStart, addCandidate_resting]
  rfl

-- The two signs of an empty collection.
theorem readFrom_empty {first last : Char} {start stop : Token} (hi : i < m.column)
    (hfirst : ∀ s : Reader, s.take first (last :: '\n' :: r) = (s.flowStart start).map (·, 0))
    (hlast : ∀ s : Reader, s.take last ('\n' :: r) = (s.flowEnd stop).map (·, 0))
    (hline : isBreak first = false ∧ isBreak last = false)
    (hskip : ∀ atStart, skip true true atStart false (last :: '\n' :: r) =
      (last :: '\n' :: r, true)) :
    ∃ m' : Mark, m'.column = 0 ∧
      (resting m T (i :: I) keyAllowed).readFrom (first :: last :: '\n' :: r) =
        (resting m' (stop :: start :: T) (i :: I) true).readAll r := by
  let o := candidate m T (i :: I) keyAllowed
  let m₁ : Mark := ⟨m.index + 1, m.line, m.column + 1⟩
  have hm₁ : m.advance [first] = m₁ := Mark.advance_line (by simpa using hline.1)
  have ho : ∀ c ∈ o, c.isRequired = false ∧ c.mark = m := isRequired_candidate hi
  have hstart : (resting m T (i :: I) keyAllowed).take first ([] ++ last :: '\n' :: r) =
      .ok (⟨m, start :: T, i :: I, 1, [none, o], true⟩, 0) := by
    rw [List.nil_append, hfirst, flowStart_resting]
    rfl
  have hbetween : readAll ⟨m₁, start :: T, i :: I, 1, [none, o], true⟩ (last :: '\n' :: r) =
      readFrom ⟨m₁, start :: T, i :: I, 1, [none, o], true⟩ (last :: '\n' :: r) := by
    refine readAll_of_begins (hskip _) (dropStale_of_fresh fun o' ho' c hc => ?_) ?_
    · rcases List.mem_cons.mp ho' with rfl | ho'
      · cases hc
      · rw [(ho c (List.mem_singleton.mp ho' ▸ hc)).2]
        exact ⟨Nat.le_refl _, Nat.add_le_add_left (by decide) _⟩
    · simpa [m₁] using Nat.le_succ_of_le (Nat.le_of_lt hi)
  have hstop : take ⟨m₁, start :: T, i :: I, 1, [none, o], true⟩ last ([] ++ '\n' :: r) =
      .ok (⟨m₁, stop :: start :: T, i :: I, 0, [o], false⟩, 0) := by
    rw [List.nil_append, hlast]
    rfl
  have hend : ∀ c ∈ o, c.isRequired = false ∧ c.mark.line ≤ (m₁.advance [last]).line := by
    intro c hc
    exact ⟨(ho c hc).1, (ho c hc).2 ▸ Mark.line_le_advance (m := m₁)⟩
  have hfirst' := readFrom_of_take hstart
  rw [show (resting m T (i :: I) keyAllowed).mark.advance [first] = m₁ from hm₁] at hfirst'
  exact ⟨_, rfl, (hfirst'.trans hbetween).trans
    ((readFrom_of_take hstop).trans (readAll_line_feed hend))⟩

theorem readFrom_empty_list (hi : i < m.column) :
    ∃ m' : Mark, m'.column = 0 ∧
      (resting m T (i :: I) keyAllowed).readFrom ('[' :: ']' :: '\n' :: r) =
        (resting m' (.flowSequenceEnd :: .flowSequence :: T) (i :: I) true).readAll r := by
  refine readFrom_empty hi (fun s => ?_) (fun s => ?_) (by decide) (fun _ => ?_)
  case refine_3 => simp [skip, isBreak, byteOrderMark]
  all_goals
    simp [take, atDocumentMark]
    rfl

theorem readFrom_empty_record (hi : i < m.column) :
    ∃ m' : Mark, m'.column = 0 ∧
      (resting m T (i :: I) keyAllowed).readFrom ('\x7b' :: '\x7d' :: '\n' :: r) =
        (resting m' (.flowMappingEnd :: .flowMapping :: T) (i :: I) true).readAll r := by
  refine readFrom_empty hi (fun s => ?_) (fun s => ?_) (by decide) (fun _ => ?_)
  case refine_3 => simp [skip, isBreak, byteOrderMark]
  all_goals
    simp [take, atDocumentMark]
    rfl

end Indicators

end Reader
end LuaBundle.Yaml

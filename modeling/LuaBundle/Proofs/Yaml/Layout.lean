import LuaBundle.Proofs.Yaml.Scan
import LuaBundle.Yaml.Write

namespace LuaBundle.Yaml

-- Values whose texts stand in one line each, and whose keys need no quotes.
inductive Value.OneLine : Value → Prop
  | null : OneLine .null
  | text {t : String} (h : ∀ c ∈ t.toList, isBreak c = false) : OneLine (.text t)
  | list {items : List Value} (h : ∀ v ∈ items, OneLine v) : OneLine (.list items)
  | record {entries : List (String × Value)} (hk : ∀ e ∈ entries, IsWord e.1.toList)
      (hv : ∀ e ∈ entries, OneLine e.2) : OneLine (.record entries)

namespace Value

mutual

-- The tokens that a value is written with. A list under a key has no start and no end.
def pieces (isHanging : Bool) : Value → List Token
  | null => [.scalar true "null"]
  | text t => [.scalar (Style.of t = .plain) t]
  | list [] => [.flowSequence, .flowSequenceEnd]
  | list (v :: rest) =>
    let items := .blockEntry :: pieces false v ++ itemPieces rest
    if isHanging then items else .blockSequence :: items ++ [.blockEnd]
  | record [] => [.flowMapping, .flowMappingEnd]
  | record ((key, v) :: rest) =>
    .blockMapping :: .key :: .scalar true key :: .value :: pieces true v ++ entryPieces rest ++
      [.blockEnd]

def itemPieces : List Value → List Token
  | [] => []
  | v :: rest => .blockEntry :: pieces false v ++ itemPieces rest

def entryPieces : List (String × Value) → List Token
  | [] => []
  | (key, v) :: rest => .key :: .scalar true key :: .value :: pieces true v ++ entryPieces rest

end

end Value

namespace Reader

variable {i : Nat} {r text more : List Char} {ts us : List Token} {m : Mark} {T : List Token}
  {I : List Nat}

-- What stands behind a block in column `i`: a line that starts in that column or left of it.
def Fits (i : Nat) (r : List Char) : Prop :=
  ∃ k b, r = pad k ++ b ∧ k ≤ i ∧ Begins b

-- In a block in column `i`, a reader at a certain place takes a text for certain tokens.
def Reads (place : Mark → Prop) (keyAllowed : Bool) (i : Nat) (text : List Char)
    (ts : List Token) : Prop :=
  ∀ (m : Mark) (T : List Token) (I : List Nat) (r : List Char), place m → Fits i r →
    ∃ m' : Mark, m'.column = 0 ∧
      (resting m T (i :: I) keyAllowed).readAll (text ++ r) =
        (resting m' (ts.reverse ++ T) (i :: I) true).readAll r

-- What may stand after a dash in column `i`.
structure AfterDash (i : Nat) (text : List Char) (ts : List Token) : Prop where
  allowed : ∀ c ∈ text, isAllowed c
  gap : ∀ r, atGap (text ++ r)
  reads : Reads (·.column = i + 1) true i text ts

-- What may stand after the colon of a key in column `i`.
structure AfterColon (i : Nat) (text : List Char) (ts : List Token) : Prop where
  allowed : ∀ c ∈ text, isAllowed c
  gap : ∀ r, atGap (text ++ r)
  reads : Reads (i < ·.column) false i text ts

-- Lines of a block in column `i`.
structure Lines (i : Nat) (text : List Char) (ts : List Token) : Prop where
  allowed : ∀ c ∈ text, isAllowed c
  fits : ∀ {r}, Fits i r → Fits i (text ++ r)
  reads : Reads (·.column = 0) true i text ts

section Blocks

theorem isAllowed_pad : ∀ c ∈ pad i, isAllowed c :=
  fun _ hc => List.eq_of_mem_replicate hc ▸ rfl

theorem begins_word {w : List Char} (hw : IsWord w) : Begins (w ++ r) := by
  obtain ⟨c, w, rfl⟩ := List.exists_cons_of_ne_nil hw.ne_nil
  exact hw.isPlain.begins

theorem Lines.nil : Lines i [] [] where
  allowed := by simp
  fits h := h
  reads m _ _ _ hm _ := ⟨m, hm, rfl⟩

theorem Lines.append (h : Lines i text ts) (h' : Lines i more us) :
    Lines i (text ++ more) (ts ++ us) where
  allowed := List.forall_mem_append.mpr ⟨h.allowed, h'.allowed⟩
  fits hr := by
    rw [List.append_assoc]
    exact h.fits (h'.fits hr)
  reads m T I r hm hr := by
    obtain ⟨m₁, hm₁, h₁⟩ := h.reads m T I (more ++ r) hm (h'.fits hr)
    obtain ⟨m₂, hm₂, h₂⟩ := h'.reads m₁ (ts.reverse ++ T) I r hm₁ hr
    refine ⟨m₂, hm₂, ?_⟩
    rw [List.append_assoc, h₁, h₂, List.reverse_append, List.append_assoc]

theorem fits_line (h : Begins r) : Fits i (pad i ++ r) :=
  ⟨i, r, rfl, Nat.le_refl i, h⟩

-- From a place that belongs to a block to the token behind some spaces.
theorem readAll_spaces {k : Nat} {keyAllowed : Bool} (hr : Begins r) (h : i ≤ m.column + k) :
    (resting m T (i :: I) keyAllowed).readAll (pad k ++ r) =
      (resting ⟨m.index + k, m.line, m.column + k⟩ T (i :: I) keyAllowed).readFrom r := by
  rw [readAll_pad hr, closeBlocks_of_le (by simpa [resting] using h)]

-- An item behind a dash that the block has in this column already.
theorem AfterDash.readFrom (h : AfterDash i text ts) (hm : m.column = i) (hr : Fits i r)
    {T' : List Token} {J I' : List Nat} (hopen : (resting m T J true).openBlock m.column T.length 
      .blockSequence = resting m T' (i :: I') true) :
    ∃ m' : Mark, m'.column = 0 ∧
      (resting m T J true).readFrom ('-' :: (text ++ r)) =
        (resting m' (ts.reverse ++ .blockEntry :: T') (i :: I') true).readAll r := by
  obtain ⟨m₁, hm₁, hdash⟩ := readFrom_dash (h.gap r) hopen
  obtain ⟨m₂, hm₂, hread⟩ := h.reads m₁ (.blockEntry :: T') I' r (hm₁.trans (by rw [hm])) hr
  exact ⟨m₂, hm₂, hdash.trans hread⟩

-- One item in a line of its own.
theorem Lines.item (h : AfterDash i text ts) :
    Lines i (pad i ++ '-' :: text) (.blockEntry :: ts) where
  allowed := by
    simp only [List.forall_mem_append, List.forall_mem_cons]
    exact ⟨isAllowed_pad, rfl, h.allowed⟩
  fits _ := by
    rw [List.append_assoc]
    exact fits_line rfl
  reads m T I r hm hr := by
    have hm : m.column + i = i := by rw [show m.column = 0 from hm, Nat.zero_add]
    obtain ⟨m', hm', hread⟩ := h.readFrom (m := ⟨m.index + i, m.line, m.column + i⟩) (T := T)
      hm hr (openBlock_of_eq (I := i :: I) (congrArg some hm.symm))
    refine ⟨m', hm', ?_⟩
    rw [List.append_assoc, List.cons_append, readAll_spaces (by rfl) (Nat.le_of_eq hm.symm), hread,
      List.reverse_cons, List.append_assoc, List.singleton_append]

theorem AfterColon.readFrom {key : String} (hk : IsWord key.toList) (h : AfterColon i text ts)
    (hm : m.column = i) (hr : Fits i r) {T' : List Token} {J I' : List Nat}
    (hJ : J.head?.all (· ≤ m.column))
    (hopen : ∀ m' : Mark, value ⟨m', .scalar true key :: T, J, 0, [candidate m T J true], false⟩ =
      .ok (resting m' (.value :: .scalar true key :: .key :: T') (i :: I') false)) :
    ∃ m' : Mark, m'.column = 0 ∧
      (resting m T J true).readFrom (key.toList ++ ':' :: (text ++ r)) =
        (resting m' (ts.reverse ++ .value :: .scalar true key :: .key :: T') (i :: I') true).readAll
          r := by
  obtain ⟨m₁, hm₁, hkey⟩ := readFrom_key hk (h.gap r) hJ hopen
  obtain ⟨m₂, hm₂, hread⟩ := h.reads m₁ _ I' r (hm ▸ hm₁) hr
  exact ⟨m₂, hm₂, hkey.trans hread⟩

-- One entry in a line of its own.
theorem Lines.entry {key : String} (hk : IsWord key.toList) (h : AfterColon i text ts) :
    Lines i (pad i ++ key.toList ++ ':' :: text) (.key :: .scalar true key :: .value :: ts) where
  allowed := by
    simp only [List.forall_mem_append, List.forall_mem_cons]
    exact ⟨⟨isAllowed_pad, isAllowed_word hk⟩, rfl, h.allowed⟩
  fits _ := by
    rw [List.append_assoc, List.append_assoc]
    exact fits_line (begins_word hk)
  reads m T I r hm hr := by
    have hm : m.column + i = i := by rw [show m.column = 0 from hm, Nat.zero_add]
    obtain ⟨m', hm', hread⟩ := h.readFrom (m := ⟨m.index + i, m.line, m.column + i⟩) (T := T)
      (J := i :: I) hk hm hr (by simp) fun _ => value_of_eq (congrArg some hm.symm)
    refine ⟨m', hm', ?_⟩
    rw [List.append_assoc, List.append_assoc, List.cons_append,
      readAll_spaces (begins_word hk) (Nat.le_of_eq hm.symm), hread]
    simp

-- The end of a block in a column to the right.
theorem readAll_end {j : Nat} (hr : Fits i r) (hm : m.column = 0) (hj : i < j) :
    (resting m T (j :: I) true).readAll r = (resting m (.blockEnd :: T) I true).readAll r := by
  obtain ⟨k, b, rfl, hk, hb⟩ := hr
  exact readAll_close hb (by omega)

theorem Fits.mono {j : Nat} (h : Fits i r) (hj : i ≤ j) : Fits j r := by
  obtain ⟨k, b, rfl, hk, hb⟩ := h
  exact ⟨k, b, rfl, Nat.le_trans hk hj, hb⟩

-- A block in a column to the right, of which the first entry has been found.
theorem reads_mapping {key : String} (hk : IsWord key.toList) (h : AfterColon (i + 2) text ts)
    (hmore : Lines (i + 2) more us) (hm : m.column = i + 2) (hr : Fits i r) :
    ∃ m' : Mark, m'.column = 0 ∧
      (resting m T (i :: I) true).readFrom (key.toList ++ ':' :: (text ++ (more ++ r))) =
        (resting m' ((Token.blockMapping :: .key :: .scalar true key :: .value :: ts ++ us ++
          [Token.blockEnd]).reverse ++ T) (i :: I) true).readAll r := by
  have hr' : Fits (i + 2) r := hr.mono (Nat.le_add_right ..)
  obtain ⟨m₁, hm₁, hfirst⟩ := h.readFrom (T := T) (J := i :: I) hk hm (hmore.fits hr')
    (by simp [hm]) fun _ => hm ▸ value_of_lt (by simp [hm])
  obtain ⟨m₂, hm₂, hothers⟩ := hmore.reads m₁ _ (i :: I) r hm₁ hr'
  refine ⟨m₂, hm₂, ?_⟩
  rw [hfirst, hothers, readAll_end hr hm₂ (by omega)]
  simp

theorem AfterDash.mapping {key : String} (hk : IsWord key.toList) (h : AfterColon (i + 2) text ts)
    (hmore : Lines (i + 2) more us) :
    AfterDash i (' ' :: key.toList ++ ':' :: text ++ more)
      (.blockMapping :: .key :: .scalar true key :: .value :: ts ++ us ++ [.blockEnd]) where
  allowed := by
    simp only [List.forall_mem_append, List.forall_mem_cons]
    exact ⟨⟨⟨rfl, isAllowed_word hk⟩, rfl, h.allowed⟩, hmore.allowed⟩
  gap _ := rfl
  reads m T I r hm hr := by
    have hm : m.column = i + 1 := hm
    have hsplit : ' ' :: key.toList ++ ':' :: text ++ more ++ r =
        pad 1 ++ (key.toList ++ ':' :: (text ++ (more ++ r))) := by simp [pad]
    rw [hsplit, readAll_spaces (begins_word hk) (by omega)]
    exact reads_mapping hk h hmore (by rw [hm]) hr

theorem AfterColon.mapping {key : String} (hk : IsWord key.toList)
    (h : AfterColon (i + 2) text ts) (hmore : Lines (i + 2) more us) :
    AfterColon i ('\n' :: pad (i + 2) ++ key.toList ++ ':' :: text ++ more)
      (.blockMapping :: .key :: .scalar true key :: .value :: ts ++ us ++ [.blockEnd]) where
  allowed := by
    simp only [List.forall_mem_append, List.forall_mem_cons]
    exact ⟨⟨⟨⟨rfl, isAllowed_pad⟩, isAllowed_word hk⟩, rfl, h.allowed⟩, hmore.allowed⟩
  gap _ := rfl
  reads m T I r _ hr := by
    have hsplit : '\n' :: pad (i + 2) ++ key.toList ++ ':' :: text ++ more ++ r =
        '\n' :: (pad (i + 2) ++ (key.toList ++ ':' :: (text ++ (more ++ r)))) := by simp
    rw [hsplit, resting_line_feed, readAll_spaces (begins_word hk) (by simp only; omega)]
    exact reads_mapping hk h hmore (Nat.zero_add _) hr

theorem AfterDash.sequence (h : AfterDash (i + 2) text ts) (hmore : Lines (i + 2) more us) :
    AfterDash i (' ' :: '-' :: text ++ more)
      (.blockSequence :: .blockEntry :: ts ++ us ++ [.blockEnd]) where
  allowed := by
    simp only [List.forall_mem_append, List.forall_mem_cons]
    exact ⟨⟨rfl, rfl, h.allowed⟩, hmore.allowed⟩
  gap _ := rfl
  reads m T I r hm hr := by
    obtain ⟨index, line, column⟩ := m
    obtain rfl : column = i + 1 := hm
    have hr' : Fits (i + 2) r := hr.mono (Nat.le_add_right ..)
    obtain ⟨m₁, hm₁, hfirst⟩ := h.readFrom (m := ⟨index + 1, line, i + 2⟩) (T := T) (J := i :: I)
      rfl (hmore.fits hr') (openBlock_resting (by simp))
    obtain ⟨m₂, hm₂, hothers⟩ := hmore.reads m₁ _ (i :: I) r hm₁ hr'
    have hsplit : ' ' :: '-' :: text ++ more ++ r = pad 1 ++ '-' :: (text ++ (more ++ r)) := by
      simp [pad]
    refine ⟨m₂, hm₂, ?_⟩
    rw [hsplit, readAll_spaces (by rfl) (Nat.le_add_right i 2), hfirst, hothers,
      readAll_end hr hm₂ (by omega)]
    simp

-- The dashes of a list under a key stand in the column of the key.
theorem Lines.hanging (h : Lines i text ts) : AfterColon i ('\n' :: text) ts where
  allowed := List.forall_mem_cons.mpr ⟨rfl, h.allowed⟩
  gap _ := rfl
  reads m T I r _ hr := by
    rw [List.cons_append, resting_line_feed]
    exact h.reads _ T I r rfl hr

end Blocks

section Leaves

variable {place : Mark → Prop} {keyAllowed : Bool}

-- A scalar stands beside the dash or the colon.
theorem reads_scalar {isPlain : Bool} {s w : List Char} (hplace : ∀ m, place m → i < m.column)
    (hw : Spelled s isPlain w) :
    Reads place keyAllowed i (' ' :: (w ++ ['\n'])) [.scalar isPlain (String.ofList s)] := by
  rintro m T I r hm ⟨k, b, rfl, hk, hb⟩
  have hi : i < m.column + 1 := Nat.lt_succ_of_lt (hplace m hm)
  have hsplit : ' ' :: (w ++ ['\n']) ++ (pad k ++ b) = pad 1 ++ (w ++ '\n' :: (pad k ++ b)) := by
    simp [pad]
  rw [hsplit, readAll_spaces hw.begins (Nat.le_of_lt hi)]
  exact readFrom_scalar hw hi hk hb

theorem reads_text {t : String} (hplace : ∀ m, place m → i < m.column)
    (ht : ∀ c ∈ t.toList, isBreak c = false) :
    Reads place keyAllowed i (' ' :: writeScalar (i + 2) t) [.scalar (Style.of t = .plain) t] := by
  obtain ⟨w, hwrite, hw⟩ := spelled_writeScalar (i + 2) ht
  rw [hwrite]
  simpa only [String.ofList_toList] using reads_scalar hplace hw

theorem reads_null (hplace : ∀ m, place m → i < m.column) :
    Reads place keyAllowed i " null\n".toList [.scalar true "null"] := by
  have hnull : IsWord "null".toList := by decide
  exact reads_scalar hplace (.plain hnull.isPlain)

theorem reads_empty_list (hplace : ∀ m, place m → i < m.column) :
    Reads place keyAllowed i " []\n".toList [.flowSequence, .flowSequenceEnd] := by
  intro m T I r hm hr
  have hi : i < m.column + 1 := Nat.lt_succ_of_lt (hplace m hm)
  have hsplit : " []\n".toList ++ r = pad 1 ++ '[' :: ']' :: '\n' :: r := rfl
  rw [hsplit, readAll_spaces (by rfl) (Nat.le_of_lt hi)]
  exact readFrom_empty_list hi

theorem reads_empty_record (hplace : ∀ m, place m → i < m.column) :
    Reads place keyAllowed i " \x7b\x7d\n".toList [.flowMapping, .flowMappingEnd] := by
  intro m T I r hm hr
  have hi : i < m.column + 1 := Nat.lt_succ_of_lt (hplace m hm)
  have hsplit : " \x7b\x7d\n".toList ++ r = pad 1 ++ '\x7b' :: '\x7d' :: '\n' :: r := rfl
  rw [hsplit, readAll_spaces (by rfl) (Nat.le_of_lt hi)]
  exact readFrom_empty_record hi

end Leaves

section Values

open Value

theorem isAllowed_null : ∀ c ∈ " null\n".toList, isAllowed c :=
  List.all_eq_true.mp (by decide)

theorem isAllowed_empty_list : ∀ c ∈ " []\n".toList, isAllowed c :=
  List.all_eq_true.mp (by decide)

theorem isAllowed_empty_record : ∀ c ∈ " \x7b\x7d\n".toList, isAllowed c :=
  List.all_eq_true.mp (by decide)

theorem isAllowed_text {t : String} (ht : ∀ c ∈ t.toList, isBreak c = false) :
    ∀ c ∈ ' ' :: writeScalar (i + 2) t, isAllowed c :=
  List.forall_mem_cons.mpr ⟨rfl, isAllowed_writeScalar ht⟩

theorem lt_of_afterDash : ∀ m : Mark, m.column = i + 1 → i < m.column :=
  fun _ hm => hm ▸ Nat.lt_succ_self i

mutual

theorem afterDash_writeItem (i : Nat) : (v : Value) → v.OneLine →
    AfterDash i (writeItem i v) (pieces false v)
  | null, _ => ⟨isAllowed_null, fun _ => rfl, reads_null lt_of_afterDash⟩
  | text t, .text ht => ⟨isAllowed_text ht, fun _ => rfl, reads_text lt_of_afterDash ht⟩
  | list [], _ => ⟨isAllowed_empty_list, fun _ => rfl, reads_empty_list lt_of_afterDash⟩
  | list (v :: rest), .list h => by
    obtain ⟨hv, hrest⟩ := List.forall_mem_cons.mp h
    have hfirst := afterDash_writeItem (i + 2) v hv
    have hmore := lines_writeItems (i + 2) rest hrest
    exact hfirst.sequence hmore
  | record [], _ => ⟨isAllowed_empty_record, fun _ => rfl, reads_empty_record lt_of_afterDash⟩
  | record ((key, v) :: rest), .record hk h => by
    obtain ⟨hkey, hkeys⟩ := List.forall_mem_cons.mp hk
    obtain ⟨hv, hrest⟩ := List.forall_mem_cons.mp h
    have hfirst := afterColon_writeValue (i + 2) v hv
    have hmore := lines_writeEntries (i + 2) rest hkeys hrest
    exact AfterDash.mapping hkey hfirst hmore

theorem lines_writeItems (i : Nat) : (items : List Value) → (∀ v ∈ items, v.OneLine) →
    Lines i (writeItems i items) (itemPieces items)
  | [], _ => .nil
  | v :: rest, h => by
    obtain ⟨hv, hrest⟩ := List.forall_mem_cons.mp h
    exact (Lines.item (afterDash_writeItem i v hv)).append (lines_writeItems i rest hrest)

theorem lines_writeEntries (i : Nat) : (entries : List (String × Value)) →
    (∀ e ∈ entries, IsWord e.1.toList) → (∀ e ∈ entries, e.2.OneLine) →
    Lines i (writeEntries i entries) (entryPieces entries)
  | [], _, _ => .nil
  | (key, v) :: rest, hk, h => by
    obtain ⟨hkey, hkeys⟩ := List.forall_mem_cons.mp hk
    obtain ⟨hv, hrest⟩ := List.forall_mem_cons.mp h
    exact (Lines.entry hkey (afterColon_writeValue i v hv)).append
      (lines_writeEntries i rest hkeys hrest)

theorem afterColon_writeValue (i : Nat) : (v : Value) → v.OneLine →
    AfterColon i (writeValue i v) (pieces true v)
  | null, _ => ⟨isAllowed_null, fun _ => rfl, reads_null fun _ => id⟩
  | text t, .text ht => ⟨isAllowed_text ht, fun _ => rfl, reads_text (fun _ => id) ht⟩
  | list [], _ => ⟨isAllowed_empty_list, fun _ => rfl, reads_empty_list fun _ => id⟩
  | list (v :: rest), .list h => by
    obtain ⟨hv, hrest⟩ := List.forall_mem_cons.mp h
    have hfirst := Lines.item (afterDash_writeItem i v hv)
    have hmore := lines_writeItems i rest hrest
    exact (hfirst.append hmore).hanging
  | record [], _ => ⟨isAllowed_empty_record, fun _ => rfl, reads_empty_record fun _ => id⟩
  | record ((key, v) :: rest), .record hk h => by
    obtain ⟨hkey, hkeys⟩ := List.forall_mem_cons.mp hk
    obtain ⟨hv, hrest⟩ := List.forall_mem_cons.mp h
    have hfirst := afterColon_writeValue (i + 2) v hv
    have hmore := lines_writeEntries (i + 2) rest hkeys hrest
    exact AfterColon.mapping hkey hfirst hmore

end

end Values

end Reader

-- The tokens of a document with a record in it.
theorem tokens_write {entries : List (String × Value)} (hne : entries ≠ [])
    (h : (Value.record entries).OneLine) :
    tokens (write entries) = .ok (Value.pieces false (.record entries) ++ [.streamEnd]) := by
  obtain ⟨⟨key, v⟩, rest, rfl⟩ := List.exists_cons_of_ne_nil hne
  cases h with
  | record hk h =>
  obtain ⟨hkey, hkeys⟩ := List.forall_mem_cons.mp hk
  obtain ⟨hv, hrest⟩ := List.forall_mem_cons.mp h
  have hfirst := Reader.afterColon_writeValue 0 v hv
  have hmore := Reader.lines_writeEntries 0 rest hkeys hrest
  have hlines := Reader.lines_writeEntries 0 _ hk h
  have hallowed : (Value.writeEntries 0 ((key, v) :: rest)).all isAllowed :=
    List.all_eq_true.mpr hlines.allowed
  have hend : Reader.Fits 0 [] := ⟨0, [], rfl, Nat.le_refl 0, rfl⟩
  obtain ⟨m₁, hm₁, hread⟩ := hfirst.readFrom (m := .start) (T := []) (J := []) hkey rfl
    (hmore.fits hend) rfl fun _ => Reader.value_of_lt rfl
  obtain ⟨m₂, hm₂, hothers⟩ := hmore.reads m₁ _ [] [] hm₁ hend
  have hsplit : Value.writeEntries 0 ((key, v) :: rest) =
      pad 0 ++ (key.toList ++ ':' :: (Value.writeValue 0 v ++ (Value.writeEntries 0 rest ++ []))) := by
    simp [Value.writeEntries, pad]
  have hinitial : Reader.initial = Reader.resting .start [] [] true := rfl
  rw [tokens, write, String.toList_ofList, if_pos hallowed, hinitial, hsplit,
    Reader.readAll_pad (Reader.begins_word hkey), Reader.closeBlocks_of_le rfl]
  refine (hread.trans (hothers.trans (Reader.readAll_nil (by simp)))).trans ?_
  simp [Value.pieces]

end LuaBundle.Yaml

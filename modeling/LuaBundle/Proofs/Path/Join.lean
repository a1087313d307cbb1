import LuaBundle.Proofs.Path.Relative

namespace LuaBundle.Path

variable {p base rest : Path} {s body : List UInt8} {start : List Component}
  {segments : List (List UInt8)}
  {dir way : List OsString}

section Pieces

-- The segments of a text that components come from, wherever in a path it stands.
def pieces (s : List UInt8) : List (List UInt8) :=
  (s.splitOn slash).filter (!isVoid ·)

theorem pieces_append_cons (s t : List UInt8) :
    pieces (s ++ slash :: t) = pieces s ++ pieces t := by
  rw [pieces, List.splitOn_append_cons_self, List.filter_append]
  rfl

theorem pieces_cons (t : List UInt8) : pieces (slash :: t) = pieces t :=
  pieces_append_cons [] t

theorem segments_eq_pieces (h : p.isAbsolute) : p.segments = pieces p.bytes := by
  cases hs : p.bytes with
  | nil => simp [isAbsolute, hs] at h
  | cons c s =>
    obtain rfl : c = slash := by simpa [isAbsolute, hs] using h
    rw [pieces_cons, segments, hs]
    rfl

theorem pieces_intercalate_of_not_mem (h : ∀ t ∈ segments, slash ∉ t) :
    pieces ([slash].intercalate segments) = segments.filter (!isVoid ·) := by
  cases segments with
  | nil => rfl
  | cons t segments => rw [pieces, List.splitOn_intercalate slash h (by simp)]

theorem pieces_intercalate (h : ∀ n ∈ way, IsName n) :
    pieces ([slash].intercalate (way.map OsString.bytes)) = way.map OsString.bytes := by
  have hsplit : ∀ l ∈ way.map OsString.bytes, slash ∉ l := by
    intro l hl
    obtain ⟨m, hm, rfl⟩ := List.mem_map.mp hl
    exact (h m hm).2.1
  have hvoid : ∀ l ∈ way.map OsString.bytes, !isVoid l := by
    intro l hl
    obtain ⟨m, hm, rfl⟩ := List.mem_map.mp hl
    have := h m hm
    simp [isVoid, this.1, this.2.2.1]
  rw [pieces_intercalate_of_not_mem hsplit, List.filter_eq_self.mpr hvoid]

theorem pieces_ofNames (h : ∀ n ∈ way, IsName n) :
    pieces (ofNames way).bytes = way.map OsString.bytes := by
  rw [bytes_ofNames, pieces_cons, pieces_intercalate h]

-- An ending changes the last segment only.
theorem mem_pieces_append {ending piece : List UInt8} (he : slash ∉ ending)
    (h : piece ∈ pieces (s ++ ending)) : piece ∈ pieces s ∨ ∃ stem, piece = stem ++ ending := by
  by_cases hs : slash ∈ s
  case neg =>
    have hn : slash ∉ s ++ ending := by simp [hs, he]
    rw [pieces, List.splitOn_eq_singleton (by simpa using hn)] at h
    exact .inr ⟨s, List.mem_singleton.mp (List.mem_filter.mp h).1⟩
  case pos =>
    obtain ⟨after, before, hsplit, hn⟩ := List.eq_append_cons_of_mem (List.mem_reverse.mpr hs)
    have hs : s = before.reverse ++ slash :: after.reverse := by
      rw [← List.reverse_reverse s, hsplit]
      simp
    have hn : slash ∉ after.reverse ++ ending := by simp [hn, he]
    rw [hs, List.append_assoc, List.cons_append, pieces_append_cons] at h
    rw [hs, pieces_append_cons]
    rcases List.mem_append.mp h with h | h
    case inl => exact .inl (List.mem_append_left _ h)
    case inr =>
      rw [pieces, List.splitOn_eq_singleton (by simpa using hn)] at h
      exact .inr ⟨_, List.mem_singleton.mp (List.mem_filter.mp h).1⟩

theorem mem_of_mem_splitOn {d c : UInt8} {segment : List UInt8} (h : segment ∈ s.splitOn d)
    (hc : c ∈ segment) : c ∈ s := by
  have flat {texts : List (List UInt8)} (h : segment ∈ texts) : c ∈ [d].intercalate texts := by
    induction texts with
    | nil => cases h
    | cons text texts ih =>
      cases texts with
      | nil => simpa [List.mem_singleton.mp h] using hc
      | cons =>
        rw [List.intercalate_cons_cons]
        rcases List.mem_cons.mp h with rfl | h
        case inl => exact List.mem_append_left _ (List.mem_append_left _ hc)
        case inr => exact List.mem_append_right _ (ih h)
  have hs : [d].intercalate (s.splitOn d) = s := List.intercalate_splitOn d
  exact hs ▸ flat h

end Pieces

section Parts

theorem components_of_parts (h : parts p.bytes = (start, body)) :
    p.components = start ++ (pieces body).map Segment.component := by
  rw [components, h]
  rfl

theorem mem_start {c : Component} (h : parts s = (start, body)) (hc : c ∈ start) :
    c = .root ∨ c = .here := by
  rcases parts_cases s with ⟨r, -, hp⟩ | ⟨r, -, -, hp⟩ | ⟨-, hp⟩
  · obtain ⟨rfl, -⟩ := Prod.mk.inj (h.symm.trans hp)
    exact .inl (List.mem_singleton.mp hc)
  · obtain ⟨rfl, -⟩ := Prod.mk.inj (h.symm.trans hp)
    exact .inr (List.mem_singleton.mp hc)
  · obtain ⟨rfl, -⟩ := Prod.mk.inj (h.symm.trans hp)
    cases hc

theorem pieces_of_parts (h : parts s = (start, body)) : pieces s = pieces body := by
  rcases parts_cases s with ⟨r, rfl, hp⟩ | ⟨r, rfl, hr, hp⟩ | ⟨-, hp⟩
  case inl =>
    obtain ⟨-, rfl⟩ := Prod.mk.inj (h.symm.trans hp)
    exact pieces_cons _
  case inr.inl =>
    obtain ⟨-, rfl⟩ := Prod.mk.inj (h.symm.trans hp)
    cases body with
    | nil => decide
    | cons b r =>
      obtain rfl : b = slash := by simpa using hr
      exact (pieces_append_cons [dot] r).trans (pieces_cons r).symm
  case inr.inr =>
    obtain ⟨-, rfl⟩ := Prod.mk.inj (h.symm.trans hp)
    rfl

end Parts

section Join

-- What stands between a path and one that is joined to it.
def separator (base : Path) : List UInt8 :=
  if base.bytes.getLast? = some slash then [] else [slash]

theorem bytes_join (hb : base.isEmpty = false) (hr : rest.isAbsolute = false) :
    (base.join rest).bytes =
      base.bytes ++ (separator base ++ rest.bytes) := by
  unfold join separator
  by_cases hl : base.bytes.getLast? = some slash <;> simp [hb, hr, hl]

theorem isAbsolute_join (hb : base.isEmpty = false) (hr : rest.isAbsolute = false) :
    (base.join rest).isAbsolute = base.isAbsolute := by
  obtain ⟨c, s, hs⟩ := List.exists_cons_of_ne_nil (l := base.bytes) (by simpa [isEmpty] using hb)
  simp [isAbsolute, bytes_join hb hr, hs]

theorem pieces_join (hb : base.isEmpty = false) (hr : rest.isAbsolute = false) :
    pieces (base.join rest).bytes = pieces base.bytes ++ pieces rest.bytes := by
  rw [bytes_join hb hr]
  unfold separator
  split
  case isTrue hl =>
    obtain ⟨s, hs⟩ := List.getLast?_eq_some_iff.mp hl
    have hnil : pieces [] = [] := rfl
    rw [hs, List.nil_append, List.append_assoc, List.singleton_append, pieces_append_cons,
      pieces_append_cons, hnil, List.append_nil]
  case isFalse => rw [List.singleton_append, pieces_append_cons]

end Join

section Descends

-- A relative path that never leads up.
structure Descends (p : Path) : Prop where
  relative : p.isAbsolute = false
  noUp : [dot, dot] ∉ pieces p.bytes

theorem descends_of_components (h : p.isAbsolute = false) (hup : .up ∉ p.components) :
    p.Descends where
  relative := h
  noUp hpieces := by
    cases hp : parts p.bytes with
    | mk start body =>
      refine hup ?_
      rw [components_of_parts hp, ← pieces_of_parts hp]
      exact List.mem_append_right _ (List.mem_map.mpr ⟨_, hpieces, rfl⟩)

-- The names that a path leads through.
def names (p : Path) : List OsString :=
  (pieces p.bytes).map OsString.mk

theorem names_ofNames (h : ∀ n ∈ way, IsName n) : (ofNames way).names = way := by
  rw [names, pieces_ofNames h, OsString.map_mk_map_bytes]

theorem component_eq_name {piece : List UInt8} (h : piece ≠ [dot, dot]) :
    Segment.component piece = .name (⟨piece⟩) :=
  if_neg h

theorem isName_of_mem_names (h : [dot, dot] ∉ pieces p.bytes) : ∀ n ∈ p.names, IsName n := by
  intro n hn
  obtain ⟨piece, hp, rfl⟩ := List.mem_map.mp hn
  have hpiece : piece ≠ [dot, dot] := fun he => h (he ▸ hp)
  have hinner := isInner_component hp
  rw [component_eq_name hpiece] at hinner
  rcases hinner with hup | ⟨n, hname, hn⟩
  case inl => cases hup
  case inr => exact Component.name.inj hname ▸ hn

theorem clean_eq_ofNames (ha : p.isAbsolute) (h : [dot, dot] ∉ pieces p.bytes) :
    p.clean = ofNames p.names := by
  have hn := isName_of_mem_names h
  have hequiv : p.components = (ofNames p.names).components := by
    rw [components_ofNames hn, components_of_isAbsolute ha, segments_eq_pieces ha, names,
      List.map_map]
    congr 1
    exact List.map_congr_left fun piece hp => component_eq_name fun he => h (he ▸ hp)
  rw [clean_eq_of_equiv hequiv, clean_ofNames hn]

-- From a directory such a path leads on.
theorem Descends.clean_join (h : p.Descends) (hd : ∀ n ∈ dir, IsName n) :
    ((ofNames dir).join p).clean = ofNames (dir ++ p.names) := by
  have hne : (ofNames dir).isEmpty = false := by simp [isEmpty, bytes_ofNames]
  have hpieces := pieces_join hne h.relative
  have ha : ((ofNames dir).join p).isAbsolute :=
    (isAbsolute_join hne h.relative).trans (isAbsolute_ofNames dir)
  have hnames : ((ofNames dir).join p).names = dir ++ p.names := by
    rw [names, hpieces, List.map_append]
    exact congrArg (· ++ p.names) (names_ofNames hd)
  rw [clean_eq_ofNames ha, hnames]
  rw [hpieces, pieces_ofNames hd]
  simp only [List.mem_append, not_or]
  refine ⟨fun hmem => ?_, h.noUp⟩
  obtain ⟨n, hn, he⟩ := List.mem_map.mp hmem
  exact (hd n hn).2.2.2 he

end Descends

section OfNames

theorem ofNames_inj {way' : List OsString} (hn : ∀ n ∈ way, IsName n) (hn' : ∀ n ∈ way', IsName n) :
    ofNames way = ofNames way' ↔ way = way' := by
  refine ⟨fun h => ?_, congrArg ofNames⟩
  rw [← names_ofNames hn, h, names_ofNames hn']

theorem intercalate_append_eq_flatMap {α : Type} (c : α) (front : List (List α))
    {texts : List (List α)} (hne : texts ≠ []) :
    [c].intercalate (front ++ texts) = front.flatMap (· ++ [c]) ++ [c].intercalate texts := by
  induction front with
  | nil => rfl
  | cons text front ih =>
    obtain ⟨next, rest, hnext⟩ :=
      List.exists_cons_of_ne_nil (List.append_ne_nil_of_right_ne_nil front hne)
    rw [List.cons_append, hnext, List.intercalate_cons_cons, ← hnext, ih, List.flatMap_cons]
    simp only [List.append_assoc]

theorem bytes_ofNames_append (dir : List OsString) (hne : way ≠ []) :
    (ofNames (dir ++ way)).bytes =
      slash :: ((dir.map OsString.bytes).flatMap (· ++ [slash]) ++
        [slash].intercalate (way.map OsString.bytes)) := by
  rw [bytes_ofNames, List.map_append, intercalate_append_eq_flatMap slash _ (by simpa using hne)]

-- A path reads for people as its names do.
theorem text_ofNames (names : List OsString) :
    (ofNames names).text.toList = '/' :: ['/'].intercalate (names.map (·.text.toList)) := by
  have hslash : slash < 0x80 := by decide
  have hroot (bytes : List UInt8) :
      Text.decodeLossy (slash :: bytes) = '/' :: Text.decodeLossy bytes := by
    rw [← List.nil_append (slash :: bytes), Text.decodeLossy_append_cons hslash,
      Text.decodeLossy_nil]
    rfl
  rw [OsString.text, String.toList_ofList, bytes_ofNames, hroot,
    Text.decodeLossy_intercalate hslash, List.map_map]
  simp only [Function.comp_def, OsString.text, String.toList_ofList]
  rfl

theorem parent_ofNames {n : OsString} (h : ∀ m ∈ dir ++ [n], IsName m) :
    (ofNames (dir ++ [n])).parent = ofNames dir := by
  have hvoid {m : OsString} (hm : m ∈ dir ++ [n]) : isVoid m.bytes = false := by
    simp [isVoid, (h m hm).1, (h m hm).2.2.1]
  have hsplit : ([slash].intercalate ((dir ++ [n]).map OsString.bytes)).splitOn slash =
      (dir ++ [n]).map OsString.bytes := by
    refine List.splitOn_intercalate slash (fun l hl => ?_) (by simp)
    obtain ⟨m, hm, rfl⟩ := List.mem_map.mp hl
    exact (h m hm).2.1
  have hbefore : (dir.map OsString.bytes).reverse.dropWhile isVoid =
      (dir.map OsString.bytes).reverse := by
    rw [← List.map_reverse]
    cases hd : dir.reverse with
    | nil => rfl
    | cons m more =>
      have hm : m ∈ dir := List.mem_reverse.mp (hd ▸ List.mem_cons_self)
      exact List.dropWhile_cons_of_neg (by simp [hvoid (List.mem_append_left _ hm)])
  have hparts : parts (ofNames (dir ++ [n])).bytes =
      ([.root], [slash].intercalate ((dir ++ [n]).map OsString.bytes)) := by
    rw [bytes_ofNames]
    rfl
  rw [parent, parent?, hparts]
  dsimp only
  rw [hsplit, List.map_append, List.reverse_append, List.map_singleton, List.reverse_singleton,
    List.singleton_append, List.dropWhile_cons_of_neg (by simp [hvoid])]
  dsimp only
  rw [hbefore, List.reverse_reverse, Option.getD_some]
  exact eq_of_bytes_eq (bytes_ofNames dir).symm

-- The way from one path to another is the same wherever both lie.
theorem relativeTo_append {root : List OsString} (hd : ∀ n ∈ dir, IsName n)
    (hr : ∀ n ∈ root, IsName n) (hw : ∀ n ∈ way, IsName n) :
    (ofNames (dir ++ way)).relativeTo (ofNames (dir ++ root)) =
      (ofNames way).relativeTo (ofNames root) := by
  have append {names : List OsString} (hn : ∀ n ∈ names, IsName n) : ∀ n ∈ dir ++ names, IsName n :=
    List.forall_mem_append.mpr ⟨hd, hn⟩
  rw [relativeTo_eq (append hr) (append hw), relativeTo_eq hr hw, stepsTo, afterCommon_append,
    stepsTo]

theorem relativeTo_ofNames (hd : ∀ n ∈ dir, IsName n) (hw : ∀ n ∈ way, IsName n) :
    (ofNames (dir ++ way)).relativeTo (ofNames dir) =
      String.intercalate "/" (way.map OsString.text) := by
  have h : (ofNames (dir ++ way)).relativeTo (ofNames (dir ++ [])) = _ :=
    relativeTo_append hd (by simp) hw
  have hsteps : stepsTo way [] = way.map .name := by
    cases way <;> rfl
  rw [List.append_nil] at h
  rw [h, relativeTo_eq (by simp) hw, hsteps]
  simp [Function.comp_def, Component.spelling]

end OfNames

end LuaBundle.Path

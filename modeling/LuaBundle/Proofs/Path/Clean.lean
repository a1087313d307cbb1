import LuaBundle.Path.Clean
import LuaBundle.Proofs.Text.OsString

namespace LuaBundle.Path

-- A string that stands between two separators and means itself.
def IsName (n : OsString) : Prop :=
  n.bytes ≠ [] ∧ slash ∉ n.bytes ∧ n.bytes ≠ [dot] ∧ n.bytes ≠ [dot, dot]

theorem isName_iff {n : OsString} :
    IsName n ↔ n ≠ "" ∧ slash ∉ n.bytes ∧ n ≠ "." ∧ n ≠ ".." := by
  simp only [ne_eq, ← OsString.bytes_inj]
  rfl

-- What may stand in a path beside its root.
def IsInner (c : Component) : Prop :=
  c = .up ∨ ∃ n, c = .name n ∧ IsName n

-- The absolute path that leads through directories of the given names.
def ofNames (names : List OsString) : Path :=
  ofComponents (.root :: names.map .name)

theorem not_mem_of_mem_splitOn {α : Type} [DecidableEq α] {c : α} {s segment : List α}
    (h : segment ∈ s.splitOn c) :
    c ∉ segment := by
  induction s generalizing segment with
  | nil =>
    obtain rfl : segment = [] := by simpa using h
    exact List.not_mem_nil
  | cons d s ih =>
    rw [List.splitOn_cons_eq_if_modifyHead] at h
    split at h
    case isTrue =>
      rcases List.mem_cons.mp h with rfl | h
      case inl => exact List.not_mem_nil
      case inr => exact ih h
    case isFalse hd =>
      have hd : d ≠ c := by simpa using hd
      cases hs : s.splitOn c with
      | nil => exact absurd hs (List.splitOn_ne_nil c s)
      | cons first rest =>
        rw [hs, List.modifyHead_cons] at h
        rcases List.mem_cons.mp h with rfl | h
        case inl =>
          have := ih (hs ▸ List.mem_cons_self)
          simpa [Ne.symm hd] using this
        case inr => exact ih (hs ▸ .tail _ h)

theorem head?_intercalate {α : Type} {sep : List α} {c : α} {texts : List (List α)}
    (hn : ∀ t ∈ texts, t ≠ [] ∧ c ∉ t) : (sep.intercalate texts).head? ≠ some c := by
  cases texts with
  | nil => simp
  | cons t texts =>
    obtain ⟨hne, hc⟩ := hn t List.mem_cons_self
    obtain ⟨d, t, rfl⟩ := List.exists_cons_of_ne_nil hne
    have hd : d ≠ c := by
      rintro rfl
      simp at hc
    cases texts <;> simpa using hd

theorem eq_of_bytes_eq {p q : Path} (h : p.bytes = q.bytes) : p = q :=
  congrArg (fun bytes => (⟨⟨bytes⟩⟩ : Path)) h

@[simp]
theorem bytes_ofString (text : String) : (ofString text).bytes = Text.encode text.toList :=
  OsString.bytes_ofString text

section Components

variable {p : Path} {names : List OsString} {cs : List Component}

-- The segments of an absolute path that components come from.
def segments (p : Path) : List (List UInt8) :=
  (p.bytes.drop 1).splitOn slash |>.filter (!isVoid ·)

theorem components_of_isAbsolute (h : p.isAbsolute) :
    p.components = .root :: p.segments.map Segment.component := by
  cases hs : p.bytes with
  | nil => simp [isAbsolute, hs] at h
  | cons c s =>
    obtain rfl : c = slash := by simpa [isAbsolute, hs] using h
    simp [components, hs, parts, segments]

theorem isInner_component {body segment : List UInt8}
    (h : segment ∈ (body.splitOn slash).filter (!isVoid ·)) :
    IsInner (Segment.component segment) := by
  obtain ⟨hmem, hv⟩ := List.mem_filter.mp h
  have hs := not_mem_of_mem_splitOn hmem
  unfold Segment.component
  split
  case isTrue => exact .inl rfl
  case isFalse hu =>
    refine .inr ⟨_, rfl, ?_⟩
    simp only [isVoid, Bool.not_eq_true', Bool.or_eq_false_iff, decide_eq_false_iff_not] at hv
    exact ⟨hv.1, hs, hv.2, hu⟩

theorem bytes_ofNames (names : List OsString) :
    (ofNames names).bytes = slash :: [slash].intercalate (names.map OsString.bytes) := by
  simp [ofNames, ofComponents, ofComponents.spell, Function.comp_def, Component.spelling]

theorem isAbsolute_ofNames (names : List OsString) : (ofNames names).isAbsolute := by
  simp [isAbsolute, bytes_ofNames]

theorem components_ofNames (h : ∀ n ∈ names, IsName n) :
    (ofNames names).components = .root :: names.map .name := by
  rw [components_of_isAbsolute (isAbsolute_ofNames names), segments, bytes_ofNames,
    List.drop_succ_cons, List.drop_zero]
  congr 1
  cases names with
  | nil => rfl
  | cons n names =>
    have hsplit : ∀ l ∈ (n :: names).map OsString.bytes, slash ∉ l := by
      intro l hl
      obtain ⟨m, hm, rfl⟩ := List.mem_map.mp hl
      exact (h m hm).2.1
    have hvoid : ∀ l ∈ (n :: names).map OsString.bytes, !isVoid l := by
      intro l hl
      obtain ⟨m, hm, rfl⟩ := List.mem_map.mp hl
      have := h m hm
      simp [isVoid, this.1, this.2.2.1]
    rw [List.splitOn_intercalate slash hsplit (by simp), List.filter_eq_self.mpr hvoid,
      List.map_map]
    refine List.map_congr_left fun m hm => ?_
    simp [Segment.component, (h m hm).2.2.2]

theorem parts_cons_slash (r : List UInt8) : parts (slash :: r) = ([.root], r) :=
  rfl

theorem parts_cons_dot {r : List UInt8} (h : r.head?.all (· = slash)) :
    parts (dot :: r) = ([.here], r) := by
  rw [parts, if_neg (by decide), if_pos (by simpa using h)]

-- A path starts with the root, with a dot that is a component, or with neither.
theorem parts_cases (s : List UInt8) :
    (∃ r, s = slash :: r ∧ parts s = ([.root], r)) ∨
    (∃ r, s = dot :: r ∧ r.head?.all (· = slash) ∧ parts s = ([.here], r)) ∨
    (s.head? ≠ some slash ∧ parts s = ([], s)) := by
  cases s with
  | nil => exact .inr (.inr ⟨by simp, rfl⟩)
  | cons b r =>
    by_cases hb : b = slash
    case pos => exact .inl ⟨r, by rw [hb], by rw [hb, parts_cons_slash]⟩
    case neg =>
      rw [parts, if_neg hb]
      split
      case isTrue hd =>
        obtain ⟨rfl, hr⟩ := by simpa using hd
        exact .inr (.inl ⟨r, rfl, hr, rfl⟩)
      case isFalse => exact .inr (.inr ⟨by simpa using hb, rfl⟩)

theorem parts_eq_nil {s : List UInt8} (hs : s.head? ≠ some slash)
    (hdot : (s.splitOn slash).head? ≠ some [dot]) : parts s = ([], s) := by
  rcases parts_cases s with ⟨r, rfl, -⟩ | ⟨r, rfl, hr, -⟩ | ⟨-, hparts⟩
  case inl => simp at hs
  case inr.inl =>
    refine absurd ?_ hdot
    cases r with
    | nil => rfl
    | cons b r =>
      obtain rfl : b = slash := by simpa using hr
      rfl
  case inr.inr => exact hparts

-- The spelling of what may stand beside a root is read as itself.
theorem component_spelling {c : Component} (h : IsInner c) :
    c.spelling.bytes ≠ [] ∧ slash ∉ c.spelling.bytes ∧ c.spelling.bytes ≠ [dot] ∧
      Segment.component c.spelling.bytes = c := by
  rcases h with rfl | ⟨n, rfl, hne, hslash, hdot, hup⟩
  case inl => decide
  case inr => exact ⟨hne, hslash, hdot, by simp [Component.spelling, Segment.component, hup]⟩

theorem ofComponents_eq (h : ∀ c ∈ cs, IsInner c) :
    ofComponents cs = ⟨⟨ofComponents.spell cs⟩⟩ := by
  cases cs with
  | nil => rfl
  | cons c cs => rcases h c List.mem_cons_self with rfl | ⟨n, rfl, -⟩ <;> rfl

theorem bytes_ofComponents (h : ∀ c ∈ cs, IsInner c) :
    (ofComponents cs).bytes = [slash].intercalate (cs.map fun c => c.spelling.bytes) := by
  rw [ofComponents_eq h]
  rfl

theorem components_ofComponents (hne : cs ≠ []) (h : ∀ c ∈ cs, IsInner c) :
    (ofComponents cs).components = cs := by
  have htexts : ∀ t ∈ cs.map fun c => c.spelling.bytes, t ≠ [] ∧ slash ∉ t ∧ t ≠ [dot] := by
    intro t ht
    obtain ⟨c, hc, rfl⟩ := List.mem_map.mp ht
    have := component_spelling (h c hc)
    exact ⟨this.1, this.2.1, this.2.2.1⟩
  have hsplit := List.splitOn_intercalate slash (fun t ht => (htexts t ht).2.1)
    (fun he => hne (List.map_eq_nil_iff.mp he))
  have hparts : parts ([slash].intercalate (cs.map fun c => c.spelling.bytes)) =
      ([], [slash].intercalate (cs.map fun c => c.spelling.bytes)) := by
    refine parts_eq_nil (head?_intercalate fun t ht => ⟨(htexts t ht).1, (htexts t ht).2.1⟩) ?_
    rw [hsplit]
    intro hdot
    exact (htexts _ (List.mem_of_head? hdot)).2.2 rfl
  have hvoid : ∀ t ∈ cs.map fun c => c.spelling.bytes, !isVoid t := fun t ht => by
    simp [isVoid, (htexts t ht).1, (htexts t ht).2.2]
  rw [components, bytes_ofComponents h, hparts]
  dsimp only
  rw [hsplit, List.filter_eq_self.mpr hvoid, List.map_map]
  refine (List.map_congr_left fun c hc => ?_).trans (List.map_id cs)
  exact (component_spelling (h c hc)).2.2.2

end Components

section Clean

variable {p q : Path} {names : List OsString}

section Stack

-- The components of a path after cleaning, last first.
def stack (p : Path) : List Component :=
  p.components.foldl cleanStep []

-- The components of a path that leads through directories of the given names, last first.
def stackOf (names : List OsString) : List Component :=
  names.reverse.map .name ++ [.root]

theorem stackOf_concat (names : List OsString) (n : OsString) :
    stackOf (names ++ [n]) = .name n :: stackOf names := by
  simp [stackOf]

theorem cleanStep_up (names : List OsString) :
    cleanStep (stackOf names) .up = stackOf names.dropLast := by
  rcases names.eq_nil_or_concat with rfl | ⟨names, n, rfl⟩
  case inl => rfl
  case inr =>
    rw [List.concat_eq_append, stackOf_concat, List.dropLast_concat]
    rfl

theorem cleanStep_name (before : List Component) (n : OsString) :
    cleanStep before (.name n) = .name n :: before := by
  cases before <;> rfl

theorem cleanStep_replicate_up (up : Nat) :
    cleanStep (List.replicate up .up) .up = List.replicate (up + 1) .up := by
  cases up <;> rfl

-- Cleaning an absolute path leaves the root and names.
theorem exists_foldl_cleanStep {cs : List Component} (h : ∀ c ∈ cs, IsInner c)
    (hn : ∀ n ∈ names, IsName n) :
    ∃ names' : List OsString, (∀ n ∈ names', IsName n) ∧
      cs.foldl cleanStep (stackOf names) = stackOf names' := by
  induction cs generalizing names with
  | nil => exact ⟨names, hn, rfl⟩
  | cons c cs ih =>
    obtain ⟨hc, hcs⟩ := List.forall_mem_cons.mp h
    rw [List.foldl_cons]
    rcases hc with rfl | ⟨n, rfl, hname⟩
    case inl =>
      rw [cleanStep_up]
      exact ih hcs fun n hmem => hn n (List.dropLast_subset names hmem)
    case inr =>
      rw [cleanStep_name, ← stackOf_concat]
      exact ih hcs (List.forall_mem_append.mpr ⟨hn, by simpa using hname⟩)

theorem exists_stack_eq (h : p.isAbsolute) :
    ∃ names, (∀ n ∈ names, IsName n) ∧ p.stack = stackOf names := by
  have hinner : ∀ c ∈ p.segments.map Segment.component, IsInner c := by
    intro c hc
    obtain ⟨segment, hmem, rfl⟩ := List.mem_map.mp hc
    exact isInner_component hmem
  rw [stack, components_of_isAbsolute h]
  exact exists_foldl_cleanStep hinner (List.forall_mem_nil _)

theorem clean_eq_of_stack (h : p.stack = stackOf names) : p.clean = ofNames names := by
  rw [clean, ← stack, h, stackOf, List.reverse_append, ← List.map_reverse, List.reverse_reverse]
  rfl

theorem foldl_cleanStep_names (names : List OsString) (before : List Component) :
    (names.map Component.name).foldl cleanStep before = (names.map .name).reverse ++ before := by
  induction names generalizing before with
  | nil => rfl
  | cons n names ih =>
    rw [List.map_cons, List.foldl_cons, cleanStep_name, ih, List.reverse_cons, List.append_assoc]
    rfl

theorem stack_ofNames (h : ∀ n ∈ names, IsName n) : (ofNames names).stack = stackOf names := by
  rw [stack, components_ofNames h, List.foldl_cons, foldl_cleanStep_names, stackOf,
    List.map_reverse]
  rfl

end Stack

theorem exists_clean_eq_ofNames (h : p.isAbsolute) :
    ∃ names, (∀ n ∈ names, IsName n) ∧ p.clean = ofNames names := by
  obtain ⟨names, hn, hs⟩ := exists_stack_eq h
  exact ⟨names, hn, clean_eq_of_stack hs⟩

theorem clean_ofNames (h : ∀ n ∈ names, IsName n) : (ofNames names).clean = ofNames names :=
  clean_eq_of_stack (stack_ofNames h)

theorem isInner_of_mem_components (h : ¬ p.isAbsolute) {c : Component} (hc : c ∈ p.components) :
    c = .here ∨ IsInner c := by
  have inner {body : List UInt8} :
      c ∈ ((body.splitOn slash).filter (!isVoid ·)).map Segment.component → IsInner c := by
    intro hc
    obtain ⟨segment, hmem, rfl⟩ := List.mem_map.mp hc
    exact isInner_component hmem
  rcases parts_cases p.bytes with ⟨r, hs, -⟩ | ⟨r, -, -, hp⟩ | ⟨-, hp⟩
  case inl => exact absurd (by simp [isAbsolute, hs]) h
  case inr.inl =>
    rw [components, hp] at hc
    exact (List.mem_cons.mp hc).imp_right inner
  case inr.inr =>
    rw [components, hp] at hc
    exact .inr (inner hc)

-- Cleaning a relative path leaves names behind ways up.
theorem exists_foldl_cleanStep_up {segments : List Component} (up : Nat)
    (h : ∀ c ∈ segments, c = .here ∨ IsInner c) (hn : ∀ n ∈ names, IsName n) :
    ∃ (names' : List OsString) (up' : Nat), (∀ n ∈ names', IsName n) ∧
      segments.foldl cleanStep (names.map .name ++ List.replicate up .up) =
        names'.map .name ++ List.replicate up' .up := by
  induction segments generalizing names up with
  | nil => exact ⟨names, up, hn, rfl⟩
  | cons c segments ih =>
    have h' := fun d hd => h d (.tail c hd)
    rw [List.foldl_cons]
    rcases h c List.mem_cons_self with rfl | rfl | ⟨n, rfl, hname⟩
    case inl =>
      have hstep : cleanStep (names.map .name ++ List.replicate up .up) .here = _ := rfl
      rw [hstep]
      exact ih up h' hn
    case inr.inl =>
      cases names with
      | nil =>
        rw [List.map_nil, List.nil_append, cleanStep_replicate_up]
        exact ih (up + 1) h' hn
      | cons n names => exact ih up h' fun m hm => hn m (.tail n hm)
    case inr.inr =>
      rw [cleanStep_name]
      exact ih up h' (List.forall_mem_cons.mpr ⟨hname, hn⟩)

theorem foldl_cleanStep_replicate (n up : Nat) :
    (List.replicate n .up).foldl cleanStep (List.replicate up .up) =
      List.replicate (n + up) .up := by
  induction n generalizing up with
  | zero => rw [Nat.zero_add, List.replicate_zero, List.foldl_nil]
  | succ n ih =>
    rw [List.replicate_succ, List.foldl_cons, cleanStep_replicate_up, ih, Nat.add_right_comm,
      Nat.add_assoc]

theorem foldl_cleanStep_up_names (up : Nat) (names : List OsString) :
    ((List.replicate up Component.up ++ names.map Component.name).foldl cleanStep []).reverse =
      List.replicate up .up ++ names.map .name := by
  have hup : (List.replicate up Component.up).foldl cleanStep [] = List.replicate up .up :=
    foldl_cleanStep_replicate up 0
  rw [List.foldl_append, hup, foldl_cleanStep_names, List.reverse_append, List.reverse_reverse,
    List.reverse_replicate]

-- A relative path comes to ways up and then names.
theorem exists_reverse_foldl_cleanStep (h : ¬ p.isAbsolute) :
    ∃ (up : Nat) (names : List OsString), (∀ n ∈ names, IsName n) ∧
      (p.components.foldl cleanStep []).reverse =
        List.replicate up Component.up ++ names.map Component.name := by
  obtain ⟨names, up, hn, hfold⟩ :
      ∃ (names : List OsString) (up : Nat), (∀ n ∈ names, IsName n) ∧
        p.components.foldl cleanStep [] =
          names.map Component.name ++ List.replicate up Component.up :=
    @exists_foldl_cleanStep_up [] _ 0 (fun c => isInner_of_mem_components h) (by simp)
  refine ⟨up, names.reverse, by simpa using hn, ?_⟩
  rw [hfold, List.reverse_append, List.reverse_replicate, List.map_reverse]

theorem isInner_of_mem_up_names (up : Nat) (hn : ∀ n ∈ names, IsName n) :
    ∀ c ∈ List.replicate up Component.up ++ names.map Component.name, IsInner c := by
  intro c hc
  rcases List.mem_append.mp hc with hc | hc
  case inl => exact .inl (List.eq_of_mem_replicate hc)
  case inr =>
    obtain ⟨n, hmem, rfl⟩ := List.mem_map.mp hc
    exact .inr ⟨n, rfl, hn n hmem⟩

-- Cleaning does not make a relative path absolute.
theorem isAbsolute_of_clean (h : p.clean.isAbsolute) : p.isAbsolute := by
  refine Classical.byContradiction fun hp => ?_
  obtain ⟨up, names, hn, hstack⟩ := exists_reverse_foldl_cleanStep hp
  have hinner := isInner_of_mem_up_names up hn
  rw [clean, hstack] at h
  generalize List.replicate up Component.up ++ names.map Component.name = cs at h hinner
  cases cs with
  | nil => exact absurd h (by decide)
  | cons c cs =>
    simp only [isAbsolute, bytes_ofComponents hinner, decide_eq_true_eq] at h
    refine head?_intercalate (fun t ht => ?_) h
    obtain ⟨d, hd, rfl⟩ := List.mem_map.mp ht
    exact ⟨(component_spelling (hinner d hd)).1, (component_spelling (hinner d hd)).2.1⟩

-- What a path comes to is the same after cleaning.
theorem stack_clean (p : Path) : p.clean.stack = p.stack := by
  cases ha : p.isAbsolute with
  | true =>
    obtain ⟨names, hn, hstack⟩ := exists_stack_eq ha
    rw [clean_eq_of_stack hstack, hstack, stack_ofNames hn]
  | false =>
    obtain ⟨up, names, hn, hstack⟩ := exists_reverse_foldl_cleanStep (p := p) (by simp [ha])
    have hinner := isInner_of_mem_up_names up hn
    have hagain := foldl_cleanStep_up_names up names
    refine List.reverse_inj.mp ?_
    rw [stack.eq_1 p, hstack, clean, hstack]
    generalize List.replicate up Component.up ++ names.map Component.name = cs at hinner hagain
    cases cs with
    | nil => rfl
    | cons c cs => rw [stack, components_ofComponents (List.cons_ne_nil c cs) hinner, hagain]

theorem clean_eq_of_stack_eq (h : p.stack = q.stack) : p.clean = q.clean := by
  unfold stack at h
  rw [clean, clean, h]

theorem clean_eq_clean_iff : p.clean = q.clean ↔ p.stack = q.stack :=
  ⟨fun h => by rw [← stack_clean p, h, stack_clean q], clean_eq_of_stack_eq⟩

-- What is clean stays as it is.
theorem clean_clean (p : Path) : p.clean.clean = p.clean :=
  clean_eq_of_stack_eq (stack_clean p)

theorem clean_eq_of_equiv (h : p ≈ q) : p.clean = q.clean := by
  have h : p.components = q.components := h
  rw [clean, clean, h]

theorem eq_of_clean_of_equiv (hp : p.clean = p) (hq : q.clean = q) (h : p ≈ q) : p = q :=
  hp ▸ hq ▸ clean_eq_of_equiv h

end Clean

-- An absolute path in its shortest spelling.
structure Plain (p : Path) : Prop where
  absolute : p.isAbsolute
  clean : p.clean = p

theorem plain_ofNames {names : List OsString} (h : ∀ n ∈ names, IsName n) : Plain (ofNames names) :=
  ⟨isAbsolute_ofNames names, clean_ofNames h⟩

namespace Plain

variable {p q : Path}

theorem of_clean (h : p.isAbsolute) : Plain p.clean := by
  obtain ⟨names, hn, hp⟩ := exists_clean_eq_ofNames h
  exact hp ▸ plain_ofNames hn

theorem exists_names (h : Plain p) : ∃ names, (∀ n ∈ names, IsName n) ∧ p = ofNames names := by
  obtain ⟨names, hn, hp⟩ := exists_clean_eq_ofNames h.absolute
  exact ⟨names, hn, h.clean ▸ hp⟩

theorem eq_of_equiv (hp : Plain p) (hq : Plain q) (h : p ≈ q) : p = q :=
  eq_of_clean_of_equiv hp.clean hq.clean h

end Plain
end LuaBundle.Path

import LuaBundle.Proofs.Path.Join

namespace LuaBundle.Path

variable {p q base rest : Path}

section Stack

theorem foldl_components (h : p.isAbsolute = false) (before : List Component) :
    p.components.foldl cleanStep before =
      ((pieces p.bytes).map Segment.component).foldl cleanStep before := by
  rcases parts_cases p.bytes with ⟨r, hs, -⟩ | ⟨r, hs, hr, hp⟩ | ⟨-, hp⟩
  case inl => simp [isAbsolute, hs] at h
  case inr.inl =>
    rw [components_of_parts hp, pieces_of_parts hp]
    rfl
  case inr.inr =>
    rw [components_of_parts hp, pieces_of_parts hp]
    rfl

theorem stack_of_isAbsolute (h : p.isAbsolute) :
    p.stack = ((pieces p.bytes).map Segment.component).foldl cleanStep [.root] := by
  rw [stack, components_of_isAbsolute h, segments_eq_pieces h, List.foldl_cons]
  rfl

-- What is joined goes on from the directory.
theorem stack_join (h : rest.isAbsolute = false) :
    (base.join rest).stack = rest.components.foldl cleanStep base.stack := by
  cases hb : base.isEmpty with
  | true =>
    obtain rfl : base = empty := eq_of_bytes_eq (by simpa [isEmpty, empty] using hb)
    have hjoin : empty.join rest = rest := by simp [join, h, isEmpty, empty]
    rw [hjoin]
    rfl
  | false =>
    have habs := isAbsolute_join hb h
    rw [foldl_components h]
    cases ha : base.isAbsolute with
    | true => rw [stack_of_isAbsolute (habs.trans ha), stack_of_isAbsolute ha, pieces_join hb h,
        List.map_append, List.foldl_append]
    | false => rw [stack, stack, foldl_components (habs.trans ha), foldl_components ha,
        pieces_join hb h, List.map_append, List.foldl_append]

end Stack

section Rise

-- The number of levels that a path leads up before it leads anywhere else.
def rise (p : Path) : Nat :=
  p.stack.count .up

-- Steps onto a path that comes to names behind ways up, which are taken from anywhere.
theorem exists_foldl_cleanStep_above {components : List Component}
    (h : ∀ c ∈ components, c = .here ∨ IsInner c) (up : Nat) (names : List OsString) :
    ∃ (up' : Nat) (names' : List OsString), ∀ before : List Component,
      components.foldl cleanStep
        (names.map .name ++ (List.replicate up .up).foldl cleanStep before) =
          names'.map .name ++ (List.replicate up' .up).foldl cleanStep before := by
  induction components generalizing up names with
  | nil => exact ⟨up, names, fun _ => rfl⟩
  | cons c components ih =>
    obtain ⟨hc, hrest⟩ := List.forall_mem_cons.mp h
    rcases hc with rfl | rfl | ⟨n, rfl, -⟩
    case inl => exact ih hrest up names
    case inr.inl =>
      cases names with
      | nil =>
        obtain ⟨up', names', hfold⟩ := ih hrest (up + 1) []
        refine ⟨up', names', fun before => (Eq.trans ?_ (hfold before))⟩
        rw [List.replicate_succ', List.foldl_append]
        rfl
      | cons n names => exact ih hrest up names
    case inr.inr =>
      obtain ⟨up', names', hfold⟩ := ih hrest up (n :: names)
      refine ⟨up', names', fun before => (Eq.trans ?_ (hfold before))⟩
      rw [List.foldl_cons, cleanStep_name]
      rfl

-- From wherever a relative path is taken, it leads up by its rise and then down by the same names.
theorem exists_foldl_components (h : p.isAbsolute = false) :
    ∃ names : List OsString, ∀ before : List Component, p.components.foldl cleanStep before =
      names.map .name ++ (List.replicate p.rise .up).foldl cleanStep before := by
  obtain ⟨up, names, hfold⟩ :=
    exists_foldl_cleanStep_above (fun c => isInner_of_mem_components (p := p) (by simp [h])) 0 []
  have hups : (List.replicate up Component.up).foldl cleanStep [] = List.replicate up .up :=
    foldl_cleanStep_replicate up 0
  have hrise : p.rise = up := by
    have hnames : (names.map Component.name).count .up = 0 := by simp [List.count_eq_zero]
    have hstack : p.stack = _ := hfold []
    rw [rise, hstack, hups, List.count_append, hnames, Nat.zero_add, List.count_replicate_self]
  exact ⟨names, hrise ▸ hfold⟩

-- Two paths that are both absolute, or lead up by the same number of levels.
def Level (p q : Path) : Prop :=
  p.isAbsolute = q.isAbsolute ∧ p.rise = q.rise

instance (p q : Path) : Decidable (Level p q) :=
  inferInstanceAs (Decidable (_ ∧ _))

-- Level paths that are taken from one directory come to one place only if they do so from any.
theorem Level.clean_join_eq_iff (h : Level p q) (base : Path) :
    (base.join p).clean = (base.join q).clean ↔ p.clean = q.clean := by
  obtain ⟨habs, hrise⟩ := h
  cases hp : p.isAbsolute with
  | true => rw [join, join, if_pos hp, if_pos (habs ▸ hp)]
  | false =>
    have hq : q.isAbsolute = false := habs ▸ hp
    obtain ⟨names, hfold⟩ := exists_foldl_components hp
    obtain ⟨names', hfold'⟩ := exists_foldl_components hq
    rw [clean_eq_clean_iff, clean_eq_clean_iff, stack_join hp, stack_join hq, stack.eq_1 p,
      stack.eq_1 q, hfold, hfold, hfold', hfold', hrise, List.append_left_inj, List.append_left_inj]

end Rise

end LuaBundle.Path

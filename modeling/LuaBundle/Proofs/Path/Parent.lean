import LuaBundle.Proofs.Path.Join

namespace LuaBundle.Path

variable {p d : Path} {s body x y : List UInt8} {start cs : List Component}
  {segments front : List (List UInt8)}

section Front

-- What stands in front of a separator starts as the whole does.
theorem parts_front (h : parts s = (start, x ++ y)) (hy : x = [] ∨ y = [] ∨ ∃ r, y = slash :: r) :
    parts (start.flatMap (·.spelling.bytes) ++ x) = (start, x) := by
  rcases parts_cases s with ⟨r, -, hp⟩ | ⟨r, -, hr, hp⟩ | ⟨hs, hp⟩
  case inl =>
    obtain ⟨rfl, -⟩ := Prod.mk.inj (h.symm.trans hp)
    exact parts_cons_slash x
  case inr.inl =>
    obtain ⟨rfl, rfl⟩ := Prod.mk.inj (h.symm.trans hp)
    refine parts_cons_dot ?_
    cases x with
    | nil => rfl
    | cons c x => exact hr
  case inr.inr =>
    obtain ⟨rfl, rfl⟩ := Prod.mk.inj (h.symm.trans hp)
    rw [List.flatMap_nil, List.nil_append]
    rcases parts_cases x with ⟨r, rfl, -⟩ | ⟨r, rfl, hr, -⟩ | ⟨-, hx⟩
    case inl => exact absurd rfl hs
    case inr.inl =>
      have hdot : (r ++ y).head?.all (· = slash) := by
        cases r with
        | cons c r => exact hr
        | nil =>
          rcases hy with hx | rfl | ⟨r, rfl⟩
          case inl => cases hx
          case inr.inl => rfl
          case inr.inr => simp
      rw [List.cons_append, parts_cons_dot hdot] at hp
      cases (Prod.mk.inj hp).1
    case inr.inr => exact hx

end Front

section Intercalate

theorem intercalate_append {sep : List UInt8} (hne : front ≠ []) (hne' : segments ≠ []) :
    sep.intercalate (front ++ segments) =
      sep.intercalate front ++ (sep ++ sep.intercalate segments) := by
  induction front with
  | nil => exact absurd rfl hne
  | cons t front ih =>
    cases front with
    | nil => rw [List.singleton_append, List.intercalate_cons_of_ne_nil hne']; simp
    | cons t' front =>
      rw [List.cons_append, List.intercalate_cons_of_ne_nil (by simp), ih (by simp),
        List.intercalate_cons_cons]
      simp

theorem map_component_pieces (h : ∀ c ∈ cs, IsInner c) :
    (pieces ([slash].intercalate (cs.map fun c => c.spelling.bytes))).map Segment.component =
      cs := by
  have hvoid : ∀ t ∈ cs.map fun c => c.spelling.bytes, !isVoid t := by
    intro t ht
    obtain ⟨c, hc, rfl⟩ := List.mem_map.mp ht
    obtain ⟨hne, -, hdot, -⟩ := component_spelling (h c hc)
    simp [isVoid, hne, hdot]
  rw [pieces_intercalate_of_not_mem, List.filter_eq_self.mpr hvoid, List.map_map]
  · refine (List.map_congr_left fun c hc => ?_).trans (List.map_id cs)
    exact (component_spelling (h c hc)).2.2.2
  · intro t ht
    obtain ⟨c, hc, rfl⟩ := List.mem_map.mp ht
    exact (component_spelling (h c hc)).2.1

end Intercalate

section OfComponents

theorem components_ofComponents_root (h : ∀ c ∈ cs, IsInner c) :
    (ofComponents (.root :: cs)).components = .root :: cs := by
  have hparts : parts (ofComponents (.root :: cs)).bytes = ([.root], ofComponents.spell cs) :=
    parts_cons_slash _
  rw [components_of_parts hparts, ofComponents.spell, map_component_pieces h]
  rfl

theorem components_ofComponents_here (h : ∀ c ∈ cs, IsInner c) :
    (ofComponents (.here :: cs)).components = .here :: cs := by
  cases cs with
  | nil => decide
  | cons c cs =>
    have hbytes : (ofComponents (.here :: c :: cs)).bytes =
        dot :: slash :: ofComponents.spell (c :: cs) := rfl
    have hparts := hbytes ▸ parts_cons_dot (r := slash :: ofComponents.spell (c :: cs)) (by simp)
    rw [components_of_parts hparts, pieces_cons, ofComponents.spell, map_component_pieces h]
    rfl

-- The first components of a path are spelled as a path that has just these.
theorem components_ofComponents_take (p : Path) (n : Nat) :
    (ofComponents (p.components.take (n + 1))).components = p.components.take (n + 1) := by
  have inner (body : List UInt8) (m : Nat) :
      ∀ c ∈ ((pieces body).map Segment.component).take m, IsInner c := by
    intro c hc
    obtain ⟨piece, hp, rfl⟩ := List.mem_map.mp (List.mem_of_mem_take hc)
    exact isInner_component hp
  rcases parts_cases p.bytes with ⟨r, -, hp⟩ | ⟨r, -, -, hp⟩ | ⟨-, hp⟩
  case inl =>
    rw [components_of_parts hp]
    exact components_ofComponents_root (inner r n)
  case inr.inl =>
    rw [components_of_parts hp]
    exact components_ofComponents_here (inner r n)
  case inr.inr =>
    rw [components_of_parts hp, List.nil_append]
    have hinner := inner p.bytes (n + 1)
    generalize ((pieces p.bytes).map Segment.component).take (n + 1) = cs at hinner
    cases cs with
    | nil => decide
    | cons c cs => exact components_ofComponents (by simp) hinner

end OfComponents

section Parent

theorem filter_dropWhile_isVoid (segments : List (List UInt8)) :
    (segments.dropWhile isVoid).filter (!isVoid ·) = segments.filter (!isVoid ·) := by
  induction segments with
  | nil => rfl
  | cons t segments ih =>
    cases hv : isVoid t with
    | true => rw [List.dropWhile_cons_of_pos hv, ih, List.filter_cons_of_neg (by simp [hv])]
    | false => rw [List.dropWhile_cons_of_neg (by simp [hv])]

theorem pieces_eq_reverse (body : List UInt8) :
    pieces body = (((body.splitOn slash).reverse.dropWhile isVoid).filter (!isVoid ·)).reverse := by
  rw [filter_dropWhile_isVoid, List.filter_reverse, List.reverse_reverse]
  rfl

-- The segments of a text, up to one of them.
theorem exists_intercalate_append (h : front <+: body.splitOn slash) :
    ∃ y, body = [slash].intercalate front ++ y ∧
      ([slash].intercalate front = [] ∨ y = [] ∨ ∃ r, y = slash :: r) := by
  obtain ⟨behind, hsplit⟩ := h
  have hbody : body = [slash].intercalate (front ++ behind) := by
    rw [hsplit, List.intercalate_splitOn]
  by_cases hfront : front = []
  case pos => exact ⟨body, by simp [hfront], .inl (by simp [hfront])⟩
  by_cases hbehind : behind = []
  case pos => exact ⟨[], by simpa [hbehind] using hbody, .inr (.inl rfl)⟩
  case neg => exact ⟨_, hbody.trans (intercalate_append hfront hbehind), .inr (.inr ⟨_, rfl⟩)⟩

-- The parent of a path has all of its components but the last, though not always its spelling.
theorem components_of_parent? (h : p.parent? = some d) :
    p.components ≠ [] ∧ d.components = p.components.dropLast := by
  cases hp : parts p.bytes with
  | mk start body =>
    have hpieces := pieces_eq_reverse body
    rw [components_of_parts hp]
    rw [parent?, hp] at h
    dsimp only at h
    cases hd : (body.splitOn slash).reverse.dropWhile isVoid with
    | nil =>
      rw [hd] at h hpieces
      obtain ⟨rfl, rfl⟩ : start = [.here] ∧ empty = d := by simpa using h
      have hempty : empty.components = [] := by decide
      rw [hpieces, hempty]
      exact ⟨by simp, rfl⟩
    | cons last before =>
      rw [hd] at h hpieces
      obtain rfl := Option.some.inj h
      have hlast : isVoid last = false := by
        have hne : (body.splitOn slash).reverse.dropWhile isVoid ≠ [] := by simp [hd]
        simpa [hd] using List.head_dropWhile_not isVoid hne
      have hfront : (before.dropWhile isVoid).reverse <+: body.splitOn slash := by
        rw [← List.reverse_reverse (body.splitOn slash), List.reverse_prefix]
        have hbefore : before <:+ (body.splitOn slash).reverse :=
          (List.suffix_cons last before).trans (hd ▸ List.dropWhile_suffix isVoid)
        exact (List.dropWhile_suffix isVoid).trans hbefore
      obtain ⟨y, hy, hend⟩ := exists_intercalate_append hfront
      have hparts := components_of_parts (p := ⟨⟨_⟩⟩) (parts_front (hy ▸ hp) hend)
      have hslash : ∀ t ∈ (before.dropWhile isVoid).reverse, slash ∉ t := fun t ht =>
        not_mem_of_mem_splitOn (hfront.subset ht)
      rw [hparts, pieces_intercalate_of_not_mem hslash, List.filter_reverse,
        filter_dropWhile_isVoid, hpieces, List.filter_cons_of_pos (by simp [hlast]),
        List.reverse_cons, List.map_append, ← List.append_assoc]
      exact ⟨by simp, by simp⟩

end Parent

end LuaBundle.Path

import LuaBundle.File.Tree.Change
import LuaBundle.Proofs.Except
import LuaBundle.Proofs.File.Memory

namespace LuaBundle

theorem Location.path_eq_ofNames (place : Location) : place.path = Path.ofNames place := by
  rw [Location.path, Path.ofNames, Path.ofComponents, Path.ofComponents.spell, List.map_map]
  rfl

namespace Tree

variable {t t' : Tree} {place other q : Location} {p : Path} {s : OsString} {e : Entry} {links : Nat}
  {creates : Bool} {rest steps : List OsString} {content : ByteArray}

section Straight

-- A place that names alone lead to from the root, through directories and by no link.
inductive Straight (t : Tree) : Location → Prop
  | root : Straight t []
  | step {place : Location} {s : OsString} {e : Entry} (h : Straight t place)
      (hd : t.hasDirectory place) (hs : Path.IsName s) (he : t.get? (place ++ [s]) = some e)
      (hlink : ∀ target, e ≠ .link target) : Straight t (place ++ [s])

theorem Straight.of_prefix (h : t.Straight place) (hp : other <+: place) : t.Straight other := by
  induction h with
  | root => exact List.prefix_nil.mp hp ▸ .root
  | step h hd hs he hlink ih =>
    rcases List.prefix_concat_iff.mp hp with rfl | hp
    case inl => exact .step h hd hs he hlink
    case inr => exact ih hp

theorem Straight.last (h : t.Straight (place ++ [s])) : t.hasDirectory place ∧ Path.IsName s ∧
    ∃ e, t.get? (place ++ [s]) = some e ∧ ∀ target, e ≠ .link target := by
  generalize hq : place ++ [s] = q at h
  cases h with
  | root => simp at hq
  | step h hd hs he hlink =>
    obtain ⟨rfl, rfl⟩ := by simpa using hq
    exact ⟨hd, hs, _, he, hlink⟩

theorem Straight.names (h : t.Straight place) : ∀ s ∈ place, Path.IsName s := by
  induction h with
  | root => simp
  | step _ _ hs _ _ ih => simpa [or_imp, forall_and] using ⟨ih, hs⟩

theorem Straight.plain (h : t.Straight place) : place.path.Plain :=
  place.path_eq_ofNames ▸ Path.plain_ofNames h.names

end Straight

section Walk

theorem not_mem_of_mem_segments (h : s ∈ segments p) : Path.slash ∉ s.bytes := by
  obtain ⟨segment, hs, rfl⟩ := List.mem_map.mp h
  exact Path.not_mem_of_mem_splitOn hs

theorem isName_of_step (hn : ¬(decide (s = "") || decide (s = "."))) (hup : ¬s = "..")
    (hs : Path.slash ∉ s.bytes) : Path.IsName s := by
  simp only [Bool.or_eq_true, decide_eq_true_eq, not_or] at hn
  exact Path.isName_iff.mpr ⟨hn.1, hs, hn.2, hup⟩

theorem step_of_isName (h : Path.IsName s) :
    ¬(decide (s = "") || decide (s = ".")) ∧ ¬s = ".." := by
  obtain ⟨hne, -, hdot, hup⟩ := Path.isName_iff.mp h
  exact ⟨by simp [hne, hdot], hup⟩

theorem Straight.start (h : t.Straight place) (p : Path) : t.Straight (start place p) := by
  unfold Tree.start
  split
  · exact .root
  · exact h

-- Walks lead from straight places to straight places, whatever links they follow.
theorem Straight.walk (hp : t.Straight place) (hs : ∀ s ∈ steps, Path.slash ∉ s.bytes)
    (h : t.walk false links place steps = .ok q) : t.Straight q := by
  fun_induction Tree.walk t false links place steps with
  | case1 => exact Except.ok.inj h ▸ hp
  | case3 _ _ _ _ _ _ ih => exact ih hp (List.forall_mem_cons.mp hs).2 h
  | case4 _ _ _ _ _ ih =>
    exact ih (hp.of_prefix (List.dropLast_prefix _)) (List.forall_mem_cons.mp hs).2 h
  | case10 _ _ _ _ _ _ _ _ _ _ _ ih =>
    refine ih (hp.start _) (fun s hmem => ?_) h
    rcases List.mem_append.mp hmem with hmem | hmem
    case inl => exact not_mem_of_mem_segments hmem
    case inr => exact hs s (.tail _ hmem)
  | case11 _ _ _ _ hd hn hup _ _ _ hlink he ih =>
    obtain ⟨hslash, hrest⟩ := List.forall_mem_cons.mp hs
    exact ih (.step hp (by simpa using hd) (isName_of_step hn hup hslash) he hlink) hrest h
  | _ => simp_all

-- A walk by names alone arrives wherever no name on the way is too long.
theorem Straight.walk_from (place : Location) (h : t.Straight (place ++ rest)) :
    t.walk creates links place rest =
      if ∃ s ∈ rest, maxName < s.bytes.length then .error .nameTooLong
      else .ok (place ++ rest) := by
  induction rest generalizing place with
  | nil => simp [Tree.walk]
  | cons s rest ih =>
    have hsplit : place ++ s :: rest = (place ++ [s]) ++ rest := by simp
    rw [hsplit] at h ⊢
    obtain ⟨hd, hs, e, he, hlink⟩ := (h.of_prefix (List.prefix_append _ _)).last
    obtain ⟨hn, hup⟩ := step_of_isName hs
    have hnew : ¬(creates && !rest.isEmpty && rest.all (· = "")) := by
      cases rest with
      | nil => simp
      | cons s' rest =>
        have hs' : s' ≠ "" := fun hempty => (h.names s' (by simp)).1 (by simp [hempty])
        simp [hs']
    rw [Tree.walk, if_neg (by simp [hd]), if_neg hn, if_neg hup, if_neg hnew]
    by_cases hlong : maxName < s.bytes.length
    case pos => simp [hlong]
    case neg =>
      rw [if_neg hlong]
      split
      case h_1 hnone => cases he.symm.trans hnone
      case h_2 target hl => exact absurd (Option.some.inj (he.symm.trans hl)) (hlink target)
      case h_3 => simp [ih _ h, hlong]

theorem walk_void (h : t.hasDirectory place) :
    t.walk creates links place ("" :: rest) = t.walk creates links place rest := by
  rw [Tree.walk, if_neg (by simp [h]), if_pos (by simp)]

theorem segments_path (h : ∀ s ∈ place, Path.IsName s) (hne : place ≠ []) :
    segments place.path = ("" : OsString) :: place := by
  have hsplit : ∀ l ∈ place.map OsString.bytes, Path.slash ∉ l := by
    intro l hl
    obtain ⟨s, hs, rfl⟩ := List.mem_map.mp hl
    exact (h s hs).2.1
  rw [segments, Location.path_eq_ofNames, Path.bytes_ofNames,
    List.splitOn_cons_eq_if_modifyHead, if_pos (by simp),
    List.splitOn_intercalate Path.slash hsplit (by simpa using hne), List.map_cons,
    OsString.map_mk_map_bytes]
  rfl

theorem Straight.walk_path (h : t.Straight place) :
    t.walk creates links [] (segments place.path) =
      if ∃ s ∈ place, maxName < s.bytes.length then .error .nameTooLong else .ok place := by
  have hroot : t.hasDirectory [] := rfl
  have hwalk : t.walk creates links [] (segments place.path) = t.walk creates links [] place := by
    cases place with
    | nil =>
      have hs : segments (Location.path []) = [("" : OsString), ("" : OsString)] := by decide
      rw [hs, walk_void hroot, walk_void hroot]
    | cons s place => rw [segments_path h.names (by simp), walk_void hroot]
  rw [hwalk]
  exact h.walk_from []

end Walk

section Canonical

variable {p r : Path}

-- Where the path of a straight place leads is the same in every tree in which the place is
-- straight, for those who look and for those who create.
theorem Straight.locate_eq (h : t.Straight place) (h' : t'.Straight place) (creates' : Bool) :
    t'.locate creates' place.path = t.locate creates place.path := by
  have ha : place.path.isAbsolute := h.plain.absolute
  rw [locate, locate, Tree.start, Tree.start, if_pos ha, if_pos ha, h.walk_path, h'.walk_path]

theorem Straight.eq_of_locate (h : t.Straight place) (hq : t.locate creates place.path = .ok q) :
    q = place := by
  have hw := walk_of_locate hq
  rw [Tree.start, if_pos h.plain.absolute, h.walk_path] at hw
  split at hw
  case isTrue => cases hw
  case isFalse => exact (Except.ok.inj hw).symm

-- A path that something is known by is that of a straight place.
theorem exists_straight_of_canonicalize (ht : t.Straight t.here) (h : t.canonicalize r = .ok p) :
    ∃ place, t.Straight place ∧ p = place.path := by
  obtain ⟨place, hl, rfl⟩ := exists_of_canonicalize h
  exact ⟨place, (ht.start r).walk (fun s => not_mem_of_mem_segments) (walk_of_locate hl), rfl⟩

theorem plain_of_canonicalize (ht : t.Straight t.here) (h : t.canonicalize r = .ok p) : p.Plain := by
  obtain ⟨place, hplace, rfl⟩ := exists_straight_of_canonicalize ht h
  exact hplace.plain

end Canonical

section Write

theorem get?_put (hne : place ≠ []) (other : Location) :
    (t.put place e).get? other = if other = place then some e else t.get? other := by
  cases other with
  | nil => rw [if_neg (Ne.symm hne), get?, get?]
  | cons s other =>
    simp only [get?, put, List.lookup_cons]
    split
    case h_1 h => rw [if_pos (by simpa using h)]
    case h_2 h =>
      have h : s :: other ≠ place := by simpa using h
      rw [if_neg h, lookup_filter_ne h]

-- What is put at a place matters to no other place but those behind it.
theorem Straight.put (h : t.Straight other) (hp : ¬place <+: other) :
    (t.put place e).Straight other := by
  have hne : place ≠ [] := fun hnil => hp (hnil ▸ List.nil_prefix)
  induction h with
  | root => exact .root
  | @step other s e' h hd hs he hlink ih =>
    have hp' : ¬place <+: other := fun hpre => hp (hpre.trans (List.prefix_append _ _))
    have hother : other ≠ place := fun heq => hp' (heq ▸ List.prefix_rfl)
    have hhere : other ++ [s] ≠ place := fun heq => hp (heq ▸ List.prefix_rfl)
    refine .step (ih hp') ?_ hs (e := e') ?_ hlink
    · rwa [hasDirectory, get?_put hne, if_neg hother]
    · rwa [get?_put hne, if_neg hhere]

-- A file in place of what was at a straight place.
theorem Straight.put_file (h : t.Straight place) (hd : t.hasDirectory place = false) :
    (t.put place (.file content)).Straight place := by
  cases h with
  | root => cases hd
  | @step before s e h hdir hs he hlink =>
    have hlength : ¬before ++ [s] <+: before := by
      intro hpre
      have hle := hpre.length_le
      rw [List.length_append, List.length_singleton] at hle
      omega
    have hbefore : before ≠ before ++ [s] := by simp
    refine .step (h.put hlength) ?_ hs (e := .file content) ?_ (by simp)
    · rwa [hasDirectory, get?_put (by simp), if_neg hbefore]
    · rw [get?_put (by simp), if_pos rfl]

theorem locate_of_locateFile (h : t.locateFile p = .ok q) :
    t.locate true p = .ok q ∧ t.hasDirectory q = false := by
  obtain ⟨place, hl, h⟩ := exists_of_bind_eq_ok h
  cases hd : t.hasDirectory place with
  | true =>
    rw [hd] at h
    cases h
  | false =>
    rw [hd] at h
    obtain rfl := Except.ok.inj h
    exact ⟨hl, hd⟩

theorem exists_put_of_write (h : t.write p content = .ok t') :
    ∃ place, t.locate true p = .ok place ∧ t.hasDirectory place = false ∧
      t' = t.put place (.file content) := by
  obtain ⟨place, hfile, h⟩ := exists_of_bind_eq_ok h
  obtain ⟨hl, hd⟩ := locate_of_locateFile hfile
  exact ⟨place, hl, hd, (Except.ok.inj h).symm⟩

theorem exists_put_of_copy {source : Path} (h : t.copy source p = .ok t') :
    ∃ place content target, t.locate false source = .ok place ∧
      t.get? place = some (.file content) ∧ t.locate true p = .ok target ∧
      t.hasDirectory target = false ∧
      t' = t.put target (.file (if target = place then .empty else content)) := by
  obtain ⟨place, hl, h⟩ := exists_of_bind_eq_ok h
  split at h
  case h_2 => cases h
  case h_1 content hfile =>
    obtain ⟨target, ht, h⟩ := exists_of_bind_eq_ok h
    obtain ⟨htarget, hd⟩ := locate_of_locateFile ht
    exact ⟨place, content, target, hl, hfile, htarget, hd, (Except.ok.inj h).symm⟩

-- A file that is written anew is known by the same path as before.
theorem canonicalize_of_write {r : Path} (ht : t.Straight t.here) (hp : t.canonicalize r = .ok p)
    (h : t.write p content = .ok t') : t'.canonicalize p = .ok p := by
  obtain ⟨place, hplace, rfl⟩ := exists_straight_of_canonicalize ht hp
  obtain ⟨place', hl, hd, rfl⟩ := exists_put_of_write h
  obtain rfl := hplace.eq_of_locate hl
  rw [canonicalize, hplace.locate_eq (hplace.put_file hd), hl]
  rfl

end Write
end Tree
end LuaBundle

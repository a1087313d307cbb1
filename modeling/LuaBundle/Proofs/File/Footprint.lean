import LuaBundle.Proofs.File.Beside
import LuaBundle.Proofs.File.Place

namespace LuaBundle

namespace Tree

variable {t t' t'' : Tree} {paths : List Path} {p d : Path} {q place : Location}
  {content : ByteArray} {before : List OsString} {last : OsString}

section Fate

-- What becomes of a place when files are made of some paths: nothing, or a file of one of them, or
-- a directory named by the front part of one of them.
inductive Fate (t t' : Tree) (paths : List Path) (q : Location) : Prop
  | kept (h : t'.get? q = t.get? q)
  | filed {p : Path} {content : ByteArray} (hp : p ∈ paths) (hq : p.place t.here = q)
      (hd : t.hasDirectory q = false) (h : t'.get? q = some (.file content))
  | made {p d : Path} (hp : p ∈ paths) (hd : d.components <+: p.components)
      (hne : d.components ≠ p.components) (hempty : d.isEmpty = false) (hq : d.place t.here = q)
      (hnone : t.get? q = none) (h : t'.get? q = some .directory)

theorem Fate.trans (hhere : t'.here = t.here) (h : t.Fate t' paths q) (h' : t'.Fate t'' paths q) :
    t.Fate t'' paths q := by
  have hdir {e : Entry} (he : t'.get? q = some e) : t'.hasDirectory q = e.isDirectory := by
    rw [hasDirectory, he]
    rfl
  cases h' with
  | kept heq =>
    cases h with
    | kept h => exact .kept (heq.trans h)
    | filed hp hq hd h => exact .filed hp hq hd (heq.trans h)
    | made hp hd hne hempty hq hnone h => exact .made hp hd hne hempty hq hnone (heq.trans h)
  | filed hp hq hd heq =>
    rw [hhere] at hq
    cases h with
    | kept h => exact .filed hp hq (by rwa [hasDirectory, ← h]) heq
    | filed _ _ hd' => exact .filed hp hq hd' heq
    | made _ _ _ _ _ _ h => cases hd.symm.trans (hdir h)
  | made hp hd hne hempty hq hnone heq =>
    rw [hhere] at hq
    cases h with
    | kept h => exact .made hp hd hne hempty hq (h.symm.trans hnone) heq
    | filed _ _ _ h => cases hnone.symm.trans h
    | made _ _ _ _ _ _ h => cases hnone.symm.trans h

-- A tree in which files were made of some paths, and nothing else but directories for them.
structure Footprint (t : Tree) (paths : List Path) (t' : Tree) : Prop where
  linkless : t'.Linkless
  here : t'.here = t.here
  fate : ∀ q, t.Fate t' paths q

theorem Footprint.refl (ht : t.Linkless) (paths : List Path) : t.Footprint paths t :=
  ⟨ht, rfl, fun _ => .kept rfl⟩

theorem Footprint.trans (h : t.Footprint paths t') (h' : t'.Footprint paths t'') :
    t.Footprint paths t'' :=
  ⟨h'.linkless, h'.here.trans h.here, fun q => (h.fate q).trans h.here (h'.fate q)⟩

theorem Footprint.keeps (h : t.Footprint paths t') : t.Keeps t' where
  here := h.here
  hasDirectory q hq := by
    cases h.fate q with
    | kept heq => rwa [Tree.hasDirectory, heq]
    | filed _ _ hd => simp [hq] at hd
    | made _ _ _ _ _ _ heq => rw [Tree.hasDirectory, heq]; rfl
  isSome q hq := by
    cases h.fate q with
    | kept heq => rwa [heq]
    | filed _ _ _ heq => rw [heq]; rfl
    | made _ _ _ _ _ _ heq => rw [heq]; rfl

-- Files at other places stay what they are, and none comes there.
theorem Footprint.get?_eq_file (h : t.Footprint paths t') (hq : q ∉ paths.map (Path.place t.here)) :
    t'.get? q = some (.file content) ↔ t.get? q = some (.file content) := by
  cases h.fate q with
  | kept heq => rw [heq]
  | filed hp hplace => exact absurd (List.mem_map.mpr ⟨_, hp, hplace⟩) hq
  | made _ _ _ _ _ hnone heq => simp [hnone, heq]

end Fate

section Put

theorem ne_nil_of_hasDirectory (h : t.hasDirectory place = false) : place ≠ [] := by
  rintro rfl
  cases h

theorem Footprint.file (ht : t.Linkless) (hp : p ∈ paths)
    (hd : t.hasDirectory (p.place t.here) = false) :
    t.Footprint paths (t.put (p.place t.here) (.file content)) := by
  have hne := ne_nil_of_hasDirectory hd
  refine ⟨ht.put hne (by simp), rfl, fun q => ?_⟩
  by_cases hq : p.place t.here = q
  case pos => exact .filed hp hq (hq ▸ hd) (by rw [get?_put hne, if_pos hq.symm])
  case neg => exact .kept (by rw [get?_put hne, if_neg (Ne.symm hq)])

theorem Footprint.directory (ht : t.Linkless) (hp : p ∈ paths) (hd : d.components <+: p.components)
    (hne : d.components ≠ p.components) (hempty : d.isEmpty = false)
    (hnone : t.get? (d.place t.here) = none) :
    t.Footprint paths (t.put (d.place t.here) .directory) := by
  have hroot : d.place t.here ≠ [] := ne_nil_of_hasDirectory (by rw [hasDirectory, hnone]; rfl)
  refine ⟨ht.put hroot (by simp), rfl, fun q => ?_⟩
  by_cases hq : d.place t.here = q
  case pos =>
    exact .made hp hd hne hempty hq (hq ▸ hnone) (by rw [get?_put hroot, if_pos hq.symm])
  case neg => exact .kept (by rw [get?_put hroot, if_neg (Ne.symm hq)])

end Put

section Directories

theorem foldl_pass_lastStep (h : lastStep? p = some (before, last)) (place : Location) :
    last ≠ "" ∧ (segments p).foldl pass place = pass (before.foldl pass place) last := by
  have hvoid (steps : List OsString) :
      (steps.dropWhile fun s : OsString => s = "").foldr (fun s place => pass place s) place =
        steps.foldr (fun s place => pass place s) place := by
    induction steps with
    | nil => rfl
    | cons s steps ih =>
      by_cases hs : s = ""
      case pos =>
        rw [List.dropWhile_cons_of_pos (by simp [hs]), ih, List.foldr_cons, pass_of_void (.inl hs)]
      case neg => rw [List.dropWhile_cons_of_neg (by simp [hs])]
  have hfold := hvoid (segments p).reverse
  unfold lastStep? at h
  cases hd : (segments p).reverse.dropWhile fun s : OsString => s = "" with
  | nil =>
    rw [hd] at h
    cases h
  | cons s steps =>
    rw [hd] at h hfold
    obtain ⟨rfl, rfl⟩ : steps.reverse = before ∧ s = last := by simpa using h
    rw [List.foldr_reverse] at hfold
    refine ⟨?_, ?_⟩
    · have hne : (segments p).reverse.dropWhile (fun s : OsString => s = "") ≠ [] := by simp [hd]
      simpa [hd] using List.head_dropWhile_not (fun s : OsString => s = "") hne
    · rw [← hfold, List.foldr_cons, List.foldl_reverse]

-- A directory is made where there is nothing yet, and not for an empty path.
theorem Linkless.of_makeDirectory (ht : t.Linkless) (h : t.makeDirectory p = .ok t') :
    p.isEmpty = false ∧ t.get? (p.place t.here) = none ∧
      t' = t.put (p.place t.here) .directory := by
  have hr : refusal? p = none := by
    cases hr : refusal? p with
    | none => rfl
    | some e => cases (makeDirectory_of_refusal hr).symm.trans h
  obtain ⟨hnul, hempty, hlimit⟩ := refusal?_eq_none.mp hr
  cases hl : lastStep? p with
  | none =>
    rw [makeDirectory, if_neg (Bool.eq_false_iff.mp hnul), if_neg (by simp [hempty]),
      if_neg hlimit, hl] at h
    cases h
  | some steps =>
    obtain ⟨before, last⟩ := steps
    obtain ⟨hlast, hfold⟩ := foldl_pass_lastStep hl (start t.here p)
    rw [makeDirectory_eq hr hl] at h
    cases hw : t.walk false maxLinks (start t.here p) before with
    | error => rw [hw] at h; cases h
    | ok parent =>
      simp only [hw] at h
      split_ifs at h with _ hspecial _ hsome
      simp only [Bool.or_eq_true, decide_eq_true_eq, not_or] at hspecial
      have hplace : p.place t.here = parent ++ [last] := by
        rw [place_eq_foldl_pass, hfold, ← ht.eq_of_walk hw,
          pass_name (not_or.mpr ⟨hlast, hspecial.1⟩) hspecial.2]
      rw [hplace]
      exact ⟨hempty, by simpa using hsome, (Except.ok.inj h).symm⟩

theorem Footprint.makeDirectory (ht : t.Linkless) (hp : p ∈ paths)
    (hd : d.components <+: p.components) (hne : d.components ≠ p.components)
    (h : t.makeDirectory d = .ok t') : t.Footprint paths t' := by
  obtain ⟨hempty, hnone, rfl⟩ := ht.of_makeDirectory h
  exact .directory ht hp hd hne hempty hnone

-- Directories named by front parts of a path, whether all of them can be made or not.
theorem Footprint.makeDirectories {around : List Path} (ht : t.Linkless) (hp : p ∈ paths)
    (hd : ∀ d ∈ around, d.components <+: p.components ∧ d.components ≠ p.components) :
    t.Footprint paths (t.makeDirectories around).1 := by
  fun_induction Tree.makeDirectories t around with
  | case1 => exact .refl ht paths
  | case2 d around t' h =>
    obtain ⟨hfront, hne⟩ := hd d List.mem_cons_self
    exact .makeDirectory ht hp hfront hne h
  | case3 d around h t' e hrest ih =>
    have ih := ih (List.forall_mem_cons.mp hd).2
    rwa [hrest] at ih
  | case4 d around h t' hrest t'' hagain ih =>
    obtain ⟨⟨hfront, hne⟩, hd⟩ := List.forall_mem_cons.mp hd
    have ih := ih hd
    rw [hrest] at ih
    exact ih.trans (.makeDirectory ih.linkless hp hfront hne hagain)
  | case5 d around h t' hrest e hagain ih =>
    have ih := ih (List.forall_mem_cons.mp hd).2
    rwa [hrest] at ih
  | case6 => exact .refl ht paths

end Directories

end Tree

namespace Change

open LuaBundle.Tree

variable {t t' t'' : Tree} {here : Location} {paths : List Path} {p d : Path} {c : Change}
  {cs rest : List Change}

section Serves

-- A change that makes a file of one of some paths, or directories for one.
inductive Serves (paths : List Path) : Change → Prop
  | file {c : Change} (hp : c.destination ∈ paths) (hf : c.Files c.destination) : Serves paths c
  | directories {p d : Path} (hp : p ∈ paths) (hd : d.components <+: p.components)
      (hne : d.components ≠ p.components) : Serves paths (.makeDirectories d)

theorem mem_ancestors {a : Path} (h : a ∈ ancestors d) : a.components <+: d.components := by
  rcases List.mem_cons.mp h with rfl | h
  case inl => exact List.prefix_rfl
  case inr =>
    obtain ⟨n, -, rfl⟩ := List.mem_map.mp h
    rw [Path.components_ofComponents_take]
    exact List.take_prefix _ _

theorem Files.footprint (hf : c.Files p) (hp : p ∈ paths) (ht : t.Linkless) :
    t.Footprint paths (c.apply t).1 := by
  cases hf with
  | @write content =>
    rw [apply]
    cases hw : t.write p content with
    | error => exact .refl ht paths
    | ok t' =>
      obtain ⟨place, hl, hd, rfl⟩ := exists_put_of_write hw
      obtain rfl := ht.eq_place hl
      exact .file ht hp hd
  | @copy source =>
    rw [apply]
    cases hw : t.copy source p with
    | error => exact .refl ht paths
    | ok t' =>
      obtain ⟨-, -, place, -, -, hl, hd, rfl⟩ := exists_put_of_copy hw
      obtain rfl := ht.eq_place hl
      exact .file ht hp hd

theorem Serves.footprint (h : c.Serves paths) (ht : t.Linkless) :
    t.Footprint paths (c.apply t).1 := by
  cases h with
  | file hp hf => exact hf.footprint hp ht
  | directories hp hd hne =>
    refine .makeDirectories ht hp fun a ha => ?_
    have hfront := mem_ancestors ha
    refine ⟨hfront.trans hd, fun heq => hne ?_⟩
    exact hd.eq_of_length_le (heq ▸ hfront.length_le)

-- Changes in turn, wherever they stop.
theorem applyAll_footprint (ht : t.Linkless) (h : ∀ c ∈ cs, c.Serves paths) :
    t.Footprint paths (applyAll t cs).1 := by
  induction cs generalizing t with
  | nil => exact .refl ht paths
  | cons c cs ih =>
    obtain ⟨hc, hcs⟩ := List.forall_mem_cons.mp h
    have hfirst := hc.footprint ht
    rw [applyAll]
    cases happly : c.apply t with
    | mk t' failure =>
      rw [happly] at hfirst
      cases failure with
      | some e => exact hfirst
      | none => exact hfirst.trans (ih hfirst.linkless hcs)

-- The directories that a file needs serve it.
theorem exists_withParents (p : Path) (c : Change) : ∃ parents, withParents p c = parents ++ [c] ∧
    ∀ d ∈ parents, d.Serves [p] := by
  unfold withParents
  split
  case h_2 => exact ⟨[], rfl, by simp⟩
  case h_1 d hd =>
    split
    case isTrue => exact ⟨[], rfl, by simp⟩
    case isFalse =>
      obtain ⟨hne, hcomponents⟩ := Path.components_of_parent? hd
      refine ⟨[makeDirectories d], rfl, fun c hc => List.mem_singleton.mp hc ▸ ?_⟩
      refine .directories List.mem_cons_self (hcomponents ▸ List.dropLast_prefix _) fun heq => ?_
      have hlength := congrArg List.length (hcomponents.symm.trans heq)
      rw [List.length_dropLast] at hlength
      have := List.length_pos_iff.mpr hne
      omega

theorem Serves.mono {others : List Path} (h : c.Serves paths) (hsub : paths ⊆ others) :
    c.Serves others := by
  cases h with
  | file hp hf => exact .file (hsub hp) hf
  | directories hp hd hne => exact .directories (hsub hp) hd hne

theorem serves_of_mem_steps (h : ∀ c ∈ cs, c.Files c.destination) :
    ∀ c ∈ steps cs, c.Serves (cs.map destination) := by
  intro c hc
  obtain ⟨d, hd, hc⟩ := List.mem_flatMap.mp hc
  have hmem : d.destination ∈ cs.map destination := List.mem_map_of_mem hd
  obtain ⟨parents, heq, hparents⟩ := exists_withParents d.destination d
  rw [heq] at hc
  rcases List.mem_append.mp hc with hc | hc
  case inl => exact (hparents c hc).mono (by simpa using hmem)
  case inr => exact List.mem_singleton.mp hc ▸ .file hmem (h d hd)

end Serves

section Left

-- What a change that makes a file has left in a tree, if nothing else came to its places.
def Left (t t' : Tree) : Change → Prop
  | write p content => t'.bytes p = .ok content
  | copy source p => ∃ content, t.get? (source.place t.here) = some (.file content) ∧
      t'.bytes source = .ok content ∧ t'.bytes p = .ok content
  | makeDirectories _ => True

-- Changes that make files of different places and read none of them.
structure Apart (here : Location) (cs : List Change) : Prop where
  nodup : (cs.map fun c => c.destination.place here).Nodup
  unread : ∀ c ∈ cs, ∀ p, c.source? = some p →
    p.place here ∉ cs.map fun c => c.destination.place here

theorem Apart.tail (h : Apart here (c :: cs)) : Apart here cs where
  nodup := (List.nodup_cons.mp h.nodup).2
  unread d hd p hp hmem := h.unread d (.tail _ hd) p hp (.tail _ hmem)

theorem Left.of_footprint (h : c.Left t' t'') (hf : t.Footprint paths t')
    (hsource : ∀ p, c.source? = some p → p.place t.here ∉ paths.map (Path.place t.here)) :
    c.Left t t'' := by
  cases c with
  | makeDirectories => trivial
  | write => exact h
  | copy source p =>
    obtain ⟨content, hfile, hleft⟩ := h
    rw [hf.here] at hfile
    exact ⟨content, (hf.get?_eq_file (hsource source rfl)).mp hfile, hleft⟩

-- A file that is made stays while files are made of other paths.
theorem Files.left (hf : c.Files p) (ht : t.Linkless) (happly : (c.apply t).2 = none)
    (hlater : (c.apply t).1.Footprint paths t')
    (hp : p.place t.here ∉ paths.map (Path.place t.here))
    (hsource : ∀ s, c.source? = some s → s.place t.here ≠ p.place t.here ∧
      s.place t.here ∉ paths.map (Path.place t.here)) :
    c.Left t t' := by
  have hfirst := hf.footprint (List.mem_singleton_self p) ht
  have hkeeps := hfirst.keeps.trans hlater.keeps
  have hhere := hfirst.here
  -- what is at a place that the later changes leave alone
  have stays {q : Location} {content : ByteArray} (hq : q ∉ paths.map (Path.place t.here))
      (hfile : (c.apply t).1.get? q = some (.file content)) : t'.get? q = some (.file content) :=
    (hlater.get?_eq_file (hhere ▸ hq)).mpr hfile
  have found {r : Path} {q : Location} {creates : Bool} {content : ByteArray}
      (hl : t.locate creates r = .ok q) (hfile : t'.get? q = some (.file content)) :
      t'.bytes r = .ok content :=
    bytes_of_locate (hkeeps.locate ht hlater.linkless hl (Option.isSome_of_eq_some hfile)) hfile
  cases hf with
  | @write content =>
    rw [apply] at happly stays
    cases hw : t.write p content with
    | error => rw [hw] at happly; cases happly
    | ok t₁ =>
      obtain ⟨q, hl, hd, rfl⟩ := exists_put_of_write hw
      have hne : q ≠ [] := ne_nil_of_hasDirectory hd
      obtain rfl := ht.eq_place hl
      rw [hw] at stays
      exact found hl (stays hp ((get?_put hne _).trans (if_pos rfl)))
  | @copy source =>
    obtain ⟨hother, hunread⟩ := hsource source rfl
    rw [apply] at happly stays
    cases hw : t.copy source p with
    | error => rw [hw] at happly; cases happly
    | ok t₁ =>
      obtain ⟨q, content, target, hl, hfile, hl', hd, rfl⟩ := exists_put_of_copy hw
      have hne : target ≠ [] := ne_nil_of_hasDirectory hd
      obtain rfl := ht.eq_place hl
      obtain rfl := ht.eq_place hl'
      rw [hw, if_neg (Ne.symm hother)] at stays
      refine ⟨content, hfile, found hl (stays hunread ?_), found hl' (stays hp ?_)⟩
      · exact (get?_put hne _).trans ((if_neg hother).trans hfile)
      · exact (get?_put hne _).trans (if_pos rfl)

theorem applyAll_cons_of_none (h : (applyAll t (c :: rest)).2 = none) :
    (c.apply t).2 = none ∧ applyAll t (c :: rest) = applyAll (c.apply t).1 rest := by
  rw [applyAll] at h ⊢
  cases hc : c.apply t with
  | mk t' failure =>
    cases failure with
    | some e => simp [hc] at h
    | none => exact ⟨rfl, rfl⟩

theorem applyAll_append_of_none (h : (applyAll t (cs ++ rest)).2 = none) :
    applyAll t (cs ++ rest) = applyAll (applyAll t cs).1 rest := by
  induction cs generalizing t with
  | nil => rfl
  | cons c cs ih =>
    rw [List.cons_append] at h ⊢
    obtain ⟨hc, heq⟩ := applyAll_cons_of_none h
    rw [heq] at h
    rw [heq, ih h, applyAll]
    cases happly : c.apply t with
    | mk t' failure =>
      obtain rfl : failure = none := by simpa [happly] using hc
      rfl

-- Where all goes well, the first file is made once the directories for it are there.
theorem applyAll_steps_cons (ht : t.Linkless) (h : (applyAll t (steps (c :: cs))).2 = none) :
    ∃ t₁, t.Footprint [c.destination] t₁ ∧ (c.apply t₁).2 = none ∧
      applyAll t (steps (c :: cs)) = applyAll (c.apply t₁).1 (steps cs) := by
  obtain ⟨parents, hparents, hserve⟩ := exists_withParents c.destination c
  have hsteps : steps (c :: cs) = parents ++ c :: steps cs := by
    rw [steps, List.flatMap_cons, hparents, List.append_assoc]
    rfl
  rw [hsteps] at h ⊢
  have hway := applyAll_append_of_none h
  rw [hway] at h
  obtain ⟨hmade, hrest⟩ := applyAll_cons_of_none h
  exact ⟨_, applyAll_footprint ht hserve, hmade, hway.trans hrest⟩

-- Files in turn, each after the directories that it needs: in the end all of them are there. By
-- induction on the files, the first of which is made in a tree in which others are made later.
theorem applyAll_steps_left (ht : t.Linkless) (hf : ∀ c ∈ cs, c.Files c.destination)
    (ha : Apart t.here cs) (h : (applyAll t (steps cs)).2 = none) :
    ∀ c ∈ cs, c.Left t (applyAll t (steps cs)).1 := by
  induction cs generalizing t with
  | nil => simp
  | cons c cs ih =>
    obtain ⟨hc, hcs⟩ := List.forall_mem_cons.mp hf
    obtain ⟨t₁, hway, hmade, heq⟩ := applyAll_steps_cons ht h
    rw [heq] at h ⊢
    have hfirst := hway.trans (hc.footprint (List.mem_singleton_self _) hway.linkless)
    have hrest := applyAll_footprint hfirst.linkless (serves_of_mem_steps hcs)
    have hplaces : (cs.map destination).map (Path.place t₁.here) =
        cs.map fun c => c.destination.place t.here := by
      rw [hway.here, List.map_map]
      rfl
    -- no file is read at the place of the first one
    have unread {d : Change} (hd : d ∈ c :: cs) (p : Path) (hp : d.source? = some p) :
        p.place t.here ∉ [c.destination].map (Path.place t.here) := fun hmem =>
      ha.unread d hd p hp (List.mem_singleton.mp hmem ▸ List.mem_cons_self)
    refine List.forall_mem_cons.mpr ⟨?_, fun d hd => ?_⟩
    · have hleft : c.Left t₁ (applyAll (c.apply t₁).1 (steps cs)).1 := by
        refine hc.left hway.linkless hmade hrest ?_ fun p hp => ?_
        · rw [hplaces, hway.here]
          exact (List.nodup_cons.mp ha.nodup).1
        · rw [hplaces, hway.here]
          have hp := ha.unread c List.mem_cons_self p hp
          exact ⟨fun heq => hp (heq ▸ List.mem_cons_self), fun hmem => hp (.tail _ hmem)⟩
      exact hleft.of_footprint hway (unread List.mem_cons_self)
    · have hleft := ih hfirst.linkless hcs (hfirst.here ▸ ha.tail) h d hd
      exact hleft.of_footprint hfirst (unread (.tail _ hd))

end Left

end Change
end LuaBundle

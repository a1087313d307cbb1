import LuaBundle.Proofs.Module.Order

namespace LuaBundle

-- The files found, first found first.
def Survey.paths (s : Survey) : List Path :=
  s.found.reverse.map Prod.snd

namespace Builder

variable {b : Builder} {start p q : Path} {met : List Path} {k n : Nat} {e : BundleError}

section Run

variable {s s' : Survey} {g g' : Graph} {m : Module} {path : Path} {calls : List StaticCall}
  {references : List Reference}

-- No file is known by two paths.
def Distinct (b : Builder) : Prop :=
  ∀ p q, b.Located p → b.Located q → p ≈ q → p = q

theorem mem_paths_iff : q ∈ s.paths ↔ ∃ f ∈ s.found, f.2 = q := by
  simp [Survey.paths]

theorem paths_visit (hd : b.Distinct) (hs : ∀ p ∈ s.paths, b.Located p) (hq : b.Located q) :
    (b.visit s q).2.paths = meet s.paths q := by
  unfold Builder.visit Survey.visit meet
  split
  case h_1 id h =>
    obtain ⟨p, hp, he⟩ := Findings.mem_of_id?_eq_some h
    have hmem : p ∈ s.paths := mem_paths_iff.mpr ⟨_, hp, rfl⟩
    rw [if_pos (hd p q (hs p hmem) hq he ▸ hmem)]
  case h_2 h =>
    rw [if_neg fun hmem => ?_]
    · simp [Survey.paths]
    · obtain ⟨f, hf, rfl⟩ := mem_paths_iff.mp hmem
      exact Findings.id?_eq_none_iff.mp h f hf (Setoid.refl f.2)

theorem located_of_mem_meet (hs : ∀ p ∈ met, b.Located p) (hq : b.Located q) :
    ∀ p ∈ meet met q, b.Located p := by
  intro p hp
  have hp : p ∈ met ∨ p ∈ [q] := mem_foldl_meet.mp hp
  rcases hp with hp | hp
  case inl => exact hs p hp
  case inr => exact List.mem_singleton.mp hp ▸ hq

-- Following calls meets the files that they mean one after another.
theorem paths_follow (hd : b.Distinct) (hs : ∀ p ∈ s.paths, b.Located p)
    (h : b.follow path calls s = (.ok references, s')) :
    s'.paths = (references.map Reference.path).foldl meet s.paths := by
  induction calls generalizing s references with
  | nil =>
    obtain ⟨rfl, rfl⟩ := by simpa [follow] using h
    rfl
  | cons call calls ih =>
    rcases follow_cons_eq_ok h with ⟨-, h⟩ | ⟨-, target, rest, ht, hf, rfl⟩
    case inl =>
      have hpaths : (s.meetExternal path call).paths = s.paths := by
        rw [Survey.paths, (found_meetExternal s path call).1]
        rfl
      rw [ih (hpaths ▸ hs) h, hpaths]
    case inr =>
      have hvisit := paths_visit hd hs (located_of_locate ht)
      rw [ih (hvisit ▸ located_of_mem_meet hs (located_of_locate ht)) hf, hvisit]
      rfl

-- Following calls fails at the first call that means no file.
theorem follow_eq_error (h : b.follow path calls s = (.error e, s')) :
    ∃ before call after, calls = before ++ call :: after ∧ (∀ c ∈ before, b.Locates path c) ∧
      b.options.isExternal call.literal = false ∧ b.locator.locate call.literal path = .error e := by
  induction calls generalizing s with
  | nil => simp [follow] at h
  | cons call calls ih =>
    rw [follow] at h
    split at h
    case isTrue he =>
      obtain ⟨before, call', after, rfl, hbefore, hcall⟩ := ih h
      exact ⟨call :: before, call', after, rfl, List.forall_mem_cons.mpr ⟨.inl he, hbefore⟩, hcall⟩
    case isFalse he =>
      split at h
      case h_1 e' ht =>
        obtain rfl : e' = e := by simpa using congrArg Prod.fst h
        exact ⟨[], call, calls, rfl, by simp, by simpa using he, ht⟩
      case h_2 target ht =>
        cases hf : b.follow path calls (b.visit s target).2 with
        | mk result s'' =>
          simp only [hf] at h
          cases result with
          | ok rest => simp [Except.map] at h
          | error e' =>
            obtain ⟨rfl, rfl⟩ := by simpa [Except.map] using h
            obtain ⟨before, call', after, rfl, hbefore, hcall⟩ := ih hf
            exact ⟨call :: before, call', after, rfl,
              List.forall_mem_cons.mpr ⟨.inr ⟨target, ht⟩, hbefore⟩, hcall⟩

theorem Faithful.targets_eq {found : Findings} (h : b.Faithful found m) :
    b.targets m.path = m.references.map Reference.path := by
  obtain ⟨requires, hscan, hcalls⟩ := h.scanned
  rw [targets, bundledCalls_eq h.read hscan, ← hcalls, List.filterMap_map,
    ← List.filterMap_eq_map]
  refine List.filterMap_congr fun r hr => ?_
  simp [Reference.call, h.located r hr, Except.toOption]

theorem Faithful.intact {found : Findings} (h : b.Faithful found m) : b.Intact m.path := by
  obtain ⟨requires, hscan, hcalls⟩ := h.scanned
  refine ⟨m.source, requires, h.read, hscan, fun call hcall => or_iff_not_imp_left.mpr fun he => ?_⟩
  have hmem : call ∈ m.references.map Reference.call := by
    rw [hcalls]
    exact List.mem_filter.mpr ⟨hcall, by simpa using he⟩
  obtain ⟨r, hr, rfl⟩ := List.mem_map.mp hmem
  exact ⟨r.path, h.located r hr⟩

-- A turn meets the files that the calls of its file mean.
theorem Turn.paths_eq (h : b.Turn s m s') (hd : b.Distinct) (hs : ∀ p ∈ s.paths, b.Located p) :
    s'.paths = (b.targets m.path).foldl meet s.paths := by
  rw [h.faithful.targets_eq]
  cases h with
  | @mk _ path pending _ requires _ _ _ _ _ hfollow =>
    exact paths_follow (s := { s with pending := pending }.warnValueUses path requires.valueUses)
      hd hs hfollow

theorem Turn.head?_pending (h : b.Turn s m s') : s.pending.head? = some m.finding := by
  cases h with
  | mk hpending => rw [hpending]; rfl

-- A survey that has come to the turn after the first `n` files, all of them intact.
structure InStep (b : Builder) (start : Path) (n : Nat) (s : Survey) : Prop where
  paths : s.paths = b.discovered start n
  ordered : ∃ done, done.length = n ∧ Ordered done s
  intact : ∀ k < n, ∃ q, b.nth? start k = some q ∧ b.Intact q

theorem inStep_started (b : Builder) (start : Path) : b.InStep start 0 (b.started start) where
  paths := rfl
  ordered := ⟨[], rfl, b.ordered_started start⟩
  intact k hk := absurd hk (Nat.not_lt_zero k)

theorem InStep.nth?_eq (h : b.InStep start n s) :
    b.nth? start n = s.pending.head?.map Prod.snd := by
  obtain ⟨done, rfl, ho⟩ := h.ordered
  rw [nth?, ← h.paths, Survey.paths, ho, List.getElem?_map, List.getElem?_append_right le_rfl,
    Nat.sub_self, List.head?_eq_getElem?]

-- The turn of the next file discovers what the file's calls mean, and needs the file intact.
theorem InStep.turn (h : b.InStep start n s) (hd : b.Distinct) (hs : b.Located start)
    (ht : b.Turn s m s') : b.InStep start (n + 1) s' := by
  have hnth : b.nth? start n = some m.path := by
    rw [h.nth?_eq, ht.head?_pending]
    rfl
  obtain ⟨done, hdone, ho⟩ := h.ordered
  refine ⟨?_, ⟨_, by simp [hdone], ht.ordered ho⟩, fun k hk => ?_⟩
  · have hlocated : ∀ p ∈ s.paths, b.Located p := fun p hp =>
      (needed_of_mem_discovered (h.paths ▸ hp)).located hs
    rw [ht.paths_eq hd hlocated, h.paths, discovered,
      show (b.discovered start n)[n]? = some m.path from hnth]
    simp
  · rcases Nat.lt_succ_iff_lt_or_eq.mp hk with hk | rfl
    case inl => exact h.intact k hk
    case inr => exact ⟨m.path, hnth, ht.faithful.intact⟩

theorem InStep.turns (h : b.InStep start n s) (hd : b.Distinct) (hs : b.Located start)
    (ht : b.Turns g s g' s') : ∃ n', b.InStep start n' s' := by
  induction ht generalizing n with
  | refl => exact ⟨n, h⟩
  | step turn _ ih => exact ih (h.turn hd hs turn)

-- When no file waits all needed files have had their turns.
theorem InStep.intact_of_needed (h : b.InStep start n s) (hpending : s.pending = [])
    (hp : b.Needed start p) : b.Intact p := by
  obtain ⟨k, hk⟩ := needed_iff_exists_nth?.mp hp
  have hnone : b.nth? start n = none := by rw [h.nth?_eq, hpending]; rfl
  -- Nothing is discovered after the turn at which no file waits.
  have hlt : k < n := by
    by_contra hle
    have hle := Nat.le_of_not_lt hle
    have hlength := List.getElem?_eq_none_iff.mp hnone
    rw [nth?, discovered_eq hnone hle, List.getElem?_eq_none (hlength.trans hle)] at hk
    cases hk
  obtain ⟨q, hq, hintact⟩ := h.intact k hlt
  obtain rfl : q = p := Option.some.inj (hq.symm.trans hk)
  exact hintact

-- An exploration that fails takes turns until that of a broken file.
theorem turns_of_explore_error (hl : ∀ {literal p e}, b.locator.locate literal p = .error e →
      e = .unresolved literal p) (h : b.explore g s = (.error e, s')) :
    ∃ g'' s'' f, b.Turns g s g'' s'' ∧ s''.pending.head? = some f ∧ b.Breaks f.2 e := by
  fun_induction b.explore g s with
  | case1 => simp at h
  | case2 g s id path pending hp cause hread =>
    obtain rfl : _ = e := by simpa using congrArg Prod.fst h
    exact ⟨g, s, (id, path), .refl, by rw [hp]; rfl, .read hread⟩
  | case3 g s id path pending hp source hread call hscan =>
    obtain rfl : _ = e := by simpa using congrArg Prod.fst h
    exact ⟨g, s, (id, path), .refl, by rw [hp]; rfl, .dynamic hread hscan⟩
  | case4 g s id path pending hp source hread requires hscan s₀ cause s₁ hfollow =>
    obtain rfl : _ = e := by simpa using congrArg Prod.fst h
    obtain ⟨before, call, after, hcalls, hbefore, hexternal, hlocate⟩ := follow_eq_error hfollow
    obtain rfl := hl hlocate
    refine ⟨g, s, (id, path), .refl, by rw [hp]; rfl, .unresolved hread hscan hcalls hbefore ?_⟩
    simp [Locates, hexternal, hlocate]
  | case5 g s id path pending hp source hread requires hscan s₀ references s₁ hfollow ih =>
    obtain ⟨g'', s'', f, hturns, hf⟩ := ih h
    exact ⟨g'', s'', f, .step (.mk hp hread hscan hfollow) hturns, hf⟩

end Run

section BuildGraph

variable {files : FiniteFiles} {options : Options} {entry : Path} {g : Graph}

-- Where every file that is there has a canonical path a call fails for want of a file only.
theorem eq_unresolved_of_locate {literal : String}
    (hf : ∀ q, files.isFile q → ∃ r, files.canonicalize q = .ok r)
    (h : (Builder.of files options start).locator.locate literal p = .error e) :
    e = .unresolved literal p := by
  unfold Locator.locate at h
  split at h
  case h_1 => exact (Except.error.inj h).symm
  case h_2 candidate hc =>
    obtain ⟨r, hr⟩ := hf candidate (List.find?_some hc)
    simp [Builder.of, hr, Except.mapError] at h

theorem intact_of_buildGraph (hd : ∀ start, (Builder.of files options start).Distinct)
    (h : (buildGraph files options entry).result = .ok g) :
    ∃ start, files.canonicalize entry = .ok start ∧
      ∀ p, (Builder.of files options start).Needed start p →
        (Builder.of files options start).Intact p := by
  obtain ⟨start, id, s, hstart, hturns, hpending⟩ := exists_turns_of_buildGraph h
  obtain ⟨n, hn⟩ := (inStep_started _ start).turns (hd start) ⟨entry, hstart⟩ hturns
  exact ⟨start, hstart, fun p hp => hn.intact_of_needed hpending hp⟩

theorem breaks_of_buildGraph (hd : ∀ start, (Builder.of files options start).Distinct)
    (hl : ∀ {start literal p e}, (Builder.of files options start).locator.locate literal p =
      .error e → e = .unresolved literal p)
    (hstart : files.canonicalize entry = .ok start)
    (h : (buildGraph files options entry).result = .error e) :
    ∃ n p, (Builder.of files options start).nth? start n = some p ∧
      (Builder.of files options start).Breaks p e ∧
      ∀ k < n, ∃ q, (Builder.of files options start).nth? start k = some q ∧
        (Builder.of files options start).Intact q := by
  simp only [buildGraph, hstart] at h
  obtain ⟨g, s, f, hturns, hf, hbreaks⟩ := turns_of_explore_error hl (Prod.ext h rfl)
  obtain ⟨n, hn⟩ := (inStep_started _ start).turns (hd start) ⟨entry, hstart⟩ hturns
  exact ⟨n, f.2, by rw [hn.nth?_eq, hf]; rfl, hbreaks, hn.intact⟩

end BuildGraph

end Builder

namespace Memory

variable {m : Memory} {options : Options} {start p : Path} {e : BundleError}

theorem Built.distinct (h : m.Built) (options : Options) (start : Path) :
    (Builder.of m.fileSystem options start).Distinct := by
  rintro p q ⟨_, hp⟩ ⟨_, hq⟩ he
  obtain ⟨p, rfl⟩ := h.clean_eq (mem_files_of_canonicalize hp)
  obtain ⟨q, rfl⟩ := h.clean_eq (mem_files_of_canonicalize hq)
  exact Path.eq_of_clean_of_equiv (Path.clean_clean p) (Path.clean_clean q) he

theorem eq_unresolved_of_locate {literal : String}
    (h : (Builder.of m.fileSystem options start).locator.locate literal p = .error e) :
    e = .unresolved literal p :=
  Builder.eq_unresolved_of_locate (fun _ hfile => ⟨_, if_pos hfile⟩) h

end Memory

-- A build succeeds where every needed file is intact. Otherwise it fails with what is broken first
-- in the first broken file, in the order in which the needed files are discovered breadth first.
theorem buildGraph_first_breakage {m : Memory} (hm : m.Built) (options : Options) (entry : Path) :
    ((∃ g, (buildGraph m.fileSystem options entry).result = .ok g) ↔
      ∃ start, m.canonicalize entry = .ok start ∧
        ∀ p, (Builder.of m.fileSystem options start).Needed start p →
          (Builder.of m.fileSystem options start).Intact p) ∧
    ∀ start, m.canonicalize entry = .ok start →
      (∀ p, (Builder.of m.fileSystem options start).Needed start p ↔
        ∃! n, (Builder.of m.fileSystem options start).nth? start n = some p) ∧
      ∀ e, (buildGraph m.fileSystem options entry).result = .error e →
        ∃ n p, (Builder.of m.fileSystem options start).nth? start n = some p ∧
          (Builder.of m.fileSystem options start).Breaks p e ∧ e.place = p ∧
          ∀ k < n, ∃ q, (Builder.of m.fileSystem options start).nth? start k = some q ∧
            (Builder.of m.fileSystem options start).Intact q := by
  have hbreaks {start : Path} (hstart : m.canonicalize entry = .ok start) {e : BundleError} :=
    Builder.breaks_of_buildGraph (e := e) (hm.distinct options)
      Memory.eq_unresolved_of_locate hstart
  refine ⟨⟨fun ⟨g, hg⟩ => Builder.intact_of_buildGraph (hm.distinct options) hg,
    fun ⟨start, hstart, hintact⟩ => ?_⟩, fun start hstart => ⟨fun p => ?_, fun e he => ?_⟩⟩
  · cases h : (buildGraph m.fileSystem options entry).result with
    | ok g => exact ⟨g, rfl⟩
    | error e =>
      obtain ⟨n, p, hp, hbroken, -⟩ := hbreaks hstart h
      exact absurd (hintact p (Builder.needed_iff_exists_nth?.mpr ⟨n, hp⟩)) hbroken.not_intact
  · rw [Builder.needed_iff_exists_nth?]
    exact ⟨fun ⟨n, hn⟩ => ⟨n, hn, fun k hk => Builder.nth?_inj hk hn⟩, ExistsUnique.exists⟩
  · obtain ⟨n, p, hp, hbroken, hintact⟩ := hbreaks hstart he
    exact ⟨n, p, hp, hbroken, hbroken.place_eq, hintact⟩

-- A file that lacks one of its files, behind it one that says something dynamic, and a file that
-- is needed by the first of them only.
def torn : Memory :=
  Memory.empty
    |>.addFile ⟨"/p/main.lua"⟩ "require './a' require 'host' require './b'"
    |>.addFile ⟨"/p/a.lua"⟩ "require './main' require './gone' require './c'"
    |>.addFile ⟨"/p/b.lua"⟩ "require(name)"
    |>.addFile ⟨"/p/c.lua"⟩ "return 1"

theorem buildGraph_first_breakage_torn :
    (buildGraph torn.fileSystem ⟨[], ["host"], "lua"⟩ ⟨"/p/main.lua"⟩).result.map (fun _ => ()) =
      .error (.unresolved "./gone" ⟨"/p/a.lua"⟩) ∧
    ∃ n p, (Builder.of torn.fileSystem ⟨[], ["host"], "lua"⟩ ⟨"/p/main.lua"⟩).nth?
        ⟨"/p/main.lua"⟩ n = some p ∧
      (Builder.of torn.fileSystem ⟨[], ["host"], "lua"⟩ ⟨"/p/main.lua"⟩).Breaks p
        (.unresolved "./gone" ⟨"/p/a.lua"⟩) ∧
      (BundleError.unresolved "./gone" ⟨"/p/a.lua"⟩).place = p ∧
      ∀ k < n, ∃ q, (Builder.of torn.fileSystem ⟨[], ["host"], "lua"⟩ ⟨"/p/main.lua"⟩).nth?
          ⟨"/p/main.lua"⟩ k = some q ∧
        (Builder.of torn.fileSystem ⟨[], ["host"], "lua"⟩ ⟨"/p/main.lua"⟩).Intact q := by
  have hbuilt : torn.Built := .addFile (.addFile (.addFile (.addFile .empty _ _) _ _) _ _) _ _
  have hstart : torn.canonicalize ⟨"/p/main.lua"⟩ = .ok ⟨"/p/main.lua"⟩ := by decide +kernel
  have herror : (buildGraph torn.fileSystem ⟨[], ["host"], "lua"⟩ ⟨"/p/main.lua"⟩).result.map
      (fun _ => ()) = .error (.unresolved "./gone" ⟨"/p/a.lua"⟩) := by
    decide +kernel
  refine ⟨herror, ((buildGraph_first_breakage hbuilt _ _).2 _ hstart).2 _ ?_⟩
  cases h : (buildGraph torn.fileSystem ⟨[], ["host"], "lua"⟩ ⟨"/p/main.lua"⟩).result with
  | ok g => simp [h, Except.map] at herror
  | error e => simpa [h, Except.map] using herror

end LuaBundle

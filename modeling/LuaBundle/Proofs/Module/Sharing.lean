import Mathlib.Data.List.Induction
import LuaBundle.Proofs.Module.Needed

namespace LuaBundle

namespace Findings

variable {root path : Path} {extension : String} {paths : List Path}

-- The ids that files get one after another, latest first.
def assigned (root : Path) (extension : String) (paths : List Path) : Findings :=
  paths.foldl (fun found path => (found.newId root extension path, path) :: found) []

theorem assigned_concat :
    assigned root extension (paths ++ [path]) =
      ((assigned root extension paths).newId root extension path, path) ::
        assigned root extension paths := by
  rw [assigned, List.foldl_append]
  rfl

theorem map_snd_assigned (root : Path) (extension : String) (paths : List Path) :
    (assigned root extension paths).map Prod.snd = paths.reverse := by
  induction paths using List.reverseRecOn with
  | nil => rfl
  | append_singleton paths path ih => rw [assigned_concat, List.map_cons, ih, List.reverse_concat]

theorem apart_assigned (extension : String) (hroot : root.isAbsolute) (hp : ∀ p ∈ paths, p.Plain)
    (hn : paths.Nodup) : (assigned root extension paths).Apart := by
  induction paths using List.reverseRecOn with
  | nil => exact ⟨.nil, by simp [assigned], .nil⟩
  | append_singleton paths path ih =>
    obtain ⟨hn, -, hnew⟩ := List.nodup_append.mp hn
    have hplain := hp path (by simp)
    have hp := fun p hmem => hp p (List.mem_append_left _ hmem)
    rw [assigned_concat]
    refine (ih hp hn).cons hroot hplain (id?_eq_none_iff.mpr fun f hf he => ?_)
    have hmem : f.2 ∈ paths :=
      List.mem_reverse.mp (map_snd_assigned root extension paths ▸ List.mem_map_of_mem hf)
    exact hnew f.2 hmem path (by simp) ((hp f.2 hmem).eq_of_equiv hplain he)

theorem nodup_ids_assigned (h : (assigned root extension paths).Apart)
    (hn : (paths.map Path.slashed).Nodup) :
    ((assigned root extension paths).map Prod.fst).Nodup := by
  have hmem {f : ModuleId × Path} (hf : f ∈ assigned root extension paths) : f.2 ∈ paths :=
    List.mem_reverse.mp (map_snd_assigned root extension paths ▸ List.mem_map_of_mem hf)
  exact (h.oneToOne fun f hf g hg => List.inj_on_of_nodup_map hn (hmem hf) (hmem hg)).ids

end Findings

namespace Builder

variable {b : Builder} {found : Findings} {m n : Module} {r r' : Reference}

theorem Faithful.mem_found (h : b.Faithful found m) (hb : b.Tidy)
    (hf : ∀ f ∈ found, b.Located f.2) (hr : r ∈ m.references) : (r.target, r.path) ∈ found := by
  obtain ⟨q, hq, he⟩ := h.found r hr
  have hpath := hb.plain _ (located_of_locate (h.located r hr))
  exact (hb.plain q (hf _ hq)).eq_of_equiv hpath he ▸ hq

section References

variable {start : Path} {id : ModuleId} {g : Graph} {s : Survey}

theorem Turns.mem_found (h : b.Turns (.empty id) (b.started start) g s) (hb : b.Tidy)
    (hs : b.Located start) (hm : m ∈ g.modules) (hr : r ∈ m.references) :
    (r.target, r.path) ∈ s.found :=
  (h.faithful (by simp [Graph.empty]) m hm).mem_found hb (h.surveyed_of_started hb hs).located hr

-- References have one target just where they lead to one file or the target is the whole path of
-- both files.
theorem Turns.target_eq_iff (h : b.Turns (.empty id) (b.started start) g s) (hb : b.Tidy)
    (hs : b.Located start) (hm : m ∈ g.modules) (hn : n ∈ g.modules) (hr : r ∈ m.references)
    (hr' : r' ∈ n.references) :
    r.target = r'.target ↔ r.path = r'.path ∨ r.target.text = r.path.slashed ∧
      r'.target.text = r'.path.slashed ∧ r.path.slashed = r'.path.slashed := by
  have hapart := (h.surveyed_of_started hb hs).apart
  have hf := h.mem_found hb hs hm hr
  have hf' := h.mem_found hb hs hn hr'
  exact (hapart.id_eq_iff hf hf').trans
    (or_congr_left ⟨congrArg Prod.snd, hapart.eq_of_path_eq hf hf'⟩)

theorem Turns.target_eq_iff_path_eq (h : b.Turns (.empty id) (b.started start) g s) (hb : b.Tidy)
    (hs : b.Located start) (hslashed : ∀ p q, b.Needed start p → b.Needed start q →
      p.slashed = q.slashed → p = q) (hm : m ∈ g.modules) (hn : n ∈ g.modules)
    (hr : r ∈ m.references) (hr' : r' ∈ n.references) :
    r.target = r'.target ↔ r.path = r'.path := by
  have hneeded := h.needed_of_started
  have hpath := hneeded _ (h.mem_found hb hs hm hr)
  have hpath' := hneeded _ (h.mem_found hb hs hn hr')
  exact (h.target_eq_iff hb hs hm hn hr hr').trans
    (or_iff_left_of_imp fun ⟨_, _, he⟩ => hslashed _ _ hpath hpath' he)

end References

end Builder

-- Two files that get ids one after another share an id just where it is the whole path of each of
-- them, as text with slashes in place of backslashes.
theorem Findings.ids_assigned_differ {root : Path} (extension : String) {paths : List Path}
    (hroot : root.isAbsolute) (hp : ∀ p ∈ paths, p.Plain) (hn : paths.Nodup) :
    (∀ f ∈ assigned root extension paths, ∀ f' ∈ assigned root extension paths,
      f.1 = f'.1 ↔ f = f' ∨
        f.1.text = f.2.slashed ∧ f'.1.text = f'.2.slashed ∧ f.2.slashed = f'.2.slashed) ∧
    ((paths.map Path.slashed).Nodup → ((assigned root extension paths).map Prod.fst).Nodup) := by
  have hapart := apart_assigned extension hroot hp hn
  exact ⟨fun f hf f' hf' => hapart.id_eq_iff hf hf', nodup_ids_assigned hapart⟩

-- Two references of a build have one target just where they lead to one file or to two that share
-- an id. Where no needed files can share one, no module takes the place of another.
theorem Builder.targets_differ {files : FiniteFiles} {options : Options} {entry start : Path}
    {g : Graph} (hplain : ∀ p q, files.canonicalize p = .ok q → q.Plain)
    (hs : files.canonicalize entry = .ok start) (hne : start ≠ ⟨"/"⟩)
    (h : (buildGraph files options entry).result = .ok g) :
    (∀ m ∈ g.modules, ∀ m' ∈ g.modules, ∀ r ∈ m.references, ∀ r' ∈ m'.references,
      (r.target = r'.target ↔ r.path = r'.path ∨ r.target.text = r.path.slashed ∧
        r'.target.text = r'.path.slashed ∧ r.path.slashed = r'.path.slashed)) ∧
    ((∀ p q, (Builder.of files options start).Needed start p →
        (Builder.of files options start).Needed start q → p.slashed = q.slashed → p = q) →
      (∀ m ∈ g.modules, ∀ m' ∈ g.modules, ∀ r ∈ m.references, ∀ r' ∈ m'.references,
        (r.target = r'.target ↔ r.path = r'.path)) ∧
      ∀ p, (Builder.of files options start).Needed start p → ∃ m ∈ g.modules, m.path = p) := by
  obtain ⟨start', id, s, hs', hturns, hpending⟩ := exists_turns_of_buildGraph h
  obtain rfl : start' = start := Except.ok.inj (hs'.symm.trans hs)
  have hb := tidy_of options hplain hs hne
  refine ⟨fun m hm m' hm' r hr r' hr' => hturns.target_eq_iff hb ⟨entry, hs⟩ hm hm' hr hr',
    fun hslashed => ⟨fun m hm m' hm' r hr r' hr' =>
      hturns.target_eq_iff_path_eq hb ⟨entry, hs⟩ hslashed hm hm' hr hr', fun p hp => ?_⟩⟩
  have hexplored := hturns.explored_of_started hb ⟨entry, hs⟩ hslashed
  exact hp.exists_module hb hexplored hpending hturns.exists_mem_found

-- So the ids of files differ, and no module of a build takes the place of another, where no two
-- files have the same path as text up to backslashes.
theorem ids_differ_up_to_backslashes (root : Path) (extension : String) (paths : List Path)
    (files : FiniteFiles) (options : Options) (entry start : Path) (g : Graph) :
    (root.isAbsolute → (∀ p ∈ paths, p.Plain) → paths.Nodup →
      (∀ f ∈ Findings.assigned root extension paths,
        ∀ f' ∈ Findings.assigned root extension paths, f.1 = f'.1 ↔ f = f' ∨
          f.1.text = f.2.slashed ∧ f'.1.text = f'.2.slashed ∧ f.2.slashed = f'.2.slashed) ∧
      ((paths.map Path.slashed).Nodup →
        ((Findings.assigned root extension paths).map Prod.fst).Nodup)) ∧
    ((∀ p q, files.canonicalize p = .ok q → q.Plain) →
      files.canonicalize entry = .ok start → start ≠ ⟨"/"⟩ →
      (buildGraph files options entry).result = .ok g →
        (∀ m ∈ g.modules, ∀ m' ∈ g.modules, ∀ r ∈ m.references, ∀ r' ∈ m'.references,
          (r.target = r'.target ↔ r.path = r'.path ∨ r.target.text = r.path.slashed ∧
            r'.target.text = r'.path.slashed ∧ r.path.slashed = r'.path.slashed)) ∧
        ((∀ p q, (Builder.of files options start).Needed start p →
            (Builder.of files options start).Needed start q → p.slashed = q.slashed → p = q) →
          (∀ m ∈ g.modules, ∀ m' ∈ g.modules, ∀ r ∈ m.references, ∀ r' ∈ m'.references,
            (r.target = r'.target ↔ r.path = r'.path)) ∧
          ∀ p, (Builder.of files options start).Needed start p → ∃ m ∈ g.modules, m.path = p)) :=
  ⟨fun hroot hp hn => Findings.ids_assigned_differ extension hroot hp hn,
    fun hplain hs hne h => Builder.targets_differ hplain hs hne h⟩

-- Files with backslashes in their names, beside others that are not called the same but for them.
def escaped : Memory :=
  Memory.empty
    |>.addFile ⟨"/p/main.lua"⟩ "require './x/a.lua' require './x/a' require './x\\\\b.lua'"
    |>.addFile ⟨"/p/x/a.lua"⟩ ""
    |>.addFile ⟨"/p/x/a"⟩ "require './../x\\\\b'"
    |>.addFile ⟨"/p/x\\b.lua"⟩ "require './x/a'"
    |>.addFile ⟨"/p/x\\b"⟩ "return 1"

theorem built_escaped : escaped.Built :=
  .addFile (.addFile (.addFile (.addFile (.addFile .empty _ _) _ _) _ _) _ _) _ _

theorem ids_differ_up_to_backslashes_escaped :
    ((Findings.assigned ⟨"/p"⟩ "lua"
      [⟨"/p/x/a.lua"⟩, ⟨"/p/x/a"⟩, ⟨"/p/x\\b.lua"⟩, ⟨"/p/x\\b"⟩]).map Prod.fst).Nodup ∧
    ∃ g, (buildGraph escaped.fileSystem .default ⟨"/p/main.lua"⟩).result = .ok g ∧
      g.modules.map Module.finding =
        [(⟨"main"⟩, ⟨"/p/main.lua"⟩), (⟨"x/a"⟩, ⟨"/p/x/a.lua"⟩), (⟨"/p/x/a"⟩, ⟨"/p/x/a"⟩),
          (⟨"x\\b"⟩, ⟨"/p/x\\b.lua"⟩), (⟨"/p/x/b"⟩, ⟨"/p/x\\b"⟩)] ∧
      (∀ m ∈ g.modules, ∀ m' ∈ g.modules, ∀ r ∈ m.references, ∀ r' ∈ m'.references,
        (r.target = r'.target ↔ r.path = r'.path)) ∧
      ∀ p, (Builder.of escaped.fileSystem .default ⟨"/p/main.lua"⟩).Needed ⟨"/p/main.lua"⟩ p →
        ∃ m ∈ g.modules, m.path = p := by
  have hok : (buildGraph escaped.fileSystem .default ⟨"/p/main.lua"⟩).result.map
      (fun g => g.modules.map Module.finding) =
        .ok [(⟨"main"⟩, ⟨"/p/main.lua"⟩), (⟨"x/a"⟩, ⟨"/p/x/a.lua"⟩), (⟨"/p/x/a"⟩, ⟨"/p/x/a"⟩),
          (⟨"x\\b"⟩, ⟨"/p/x\\b.lua"⟩), (⟨"/p/x/b"⟩, ⟨"/p/x\\b"⟩)] := by
    decide +kernel
  have hplain : ∀ p, escaped.Holds p → p.Plain := fun p =>
    built_escaped.plain (show ∀ p ∈ escaped.files.map Prod.fst, p.isAbsolute by decide +kernel)
  have hstart : escaped.canonicalize ⟨"/p/main.lua"⟩ = .ok ⟨"/p/main.lua"⟩ := by decide +kernel
  have hslashed : ∀ p ∈ escaped.files.map Prod.fst, ∀ q ∈ escaped.files.map Prod.fst,
      p.slashed = q.slashed → p = q := by
    decide +kernel
  obtain ⟨g, hg, hfindings⟩ := exists_of_map_eq_ok hok
  have hdiffer := ids_differ_up_to_backslashes ⟨"/p"⟩ "lua"
    [⟨"/p/x/a.lua"⟩, ⟨"/p/x/a"⟩, ⟨"/p/x\\b.lua"⟩, ⟨"/p/x\\b"⟩] escaped.fileSystem .default
    ⟨"/p/main.lua"⟩ ⟨"/p/main.lua"⟩ g
  refine ⟨(hdiffer.1 (by decide) ?_ (by decide)).2 (by decide +kernel), g, hg, hfindings, ?_⟩
  · have hmem : ∀ p ∈ [⟨"/p/x/a.lua"⟩, ⟨"/p/x/a"⟩, ⟨"/p/x\\b.lua"⟩, ⟨"/p/x\\b"⟩],
        p ∈ escaped.files.map Prod.fst := by
      decide +kernel
    exact fun p hp => hplain p (hmem p hp)
  · refine (hdiffer.2 (fun p q h => hplain q (Memory.mem_files_of_canonicalize h)) hstart
      (by decide) hg).2 fun p q hp hq => ?_
    have hs : (Builder.of escaped.fileSystem .default ⟨"/p/main.lua"⟩).Located ⟨"/p/main.lua"⟩ :=
      ⟨⟨"/p/main.lua"⟩, hstart⟩
    obtain ⟨_, hp⟩ := hp.located hs
    obtain ⟨_, hq⟩ := hq.located hs
    exact hslashed p (Memory.mem_files_of_canonicalize hp) q (Memory.mem_files_of_canonicalize hq)

-- Four files of which two get their whole paths as ids, and these differ in a backslash only.
def shadowedPaths : List Path :=
  [⟨"/p/x/a.lua"⟩, ⟨"/p/x/a"⟩, ⟨"/p/x\\a.lua"⟩, ⟨"/p/x\\a"⟩]

def shadowed : Memory :=
  Memory.empty
    |>.addFile ⟨"/p/main.lua"⟩
      "require './x/a.lua'\nrequire './x/a'\nrequire './x\\\\a.lua'\nrequire './x\\\\a'\n"
    |>.addFile ⟨"/p/x/a.lua"⟩ "return 1\n"
    |>.addFile ⟨"/p/x/a"⟩ "return 2\n"
    |>.addFile ⟨"/p/x\\a.lua"⟩ "return 3\n"
    |>.addFile ⟨"/p/x\\a"⟩ "return 4\n"

-- Different files share an id, two references to it lead to different files, and one of the five
-- files has no module.
theorem ids_not_distinct_shadowed :
    (∀ p ∈ shadowedPaths, p.Plain) ∧ shadowedPaths.Nodup ∧
    ¬ ((Findings.assigned ⟨"/p"⟩ "lua" shadowedPaths).map Prod.fst).Nodup ∧
    ∃ g, (buildGraph shadowed.fileSystem .default ⟨"/p/main.lua"⟩).result = .ok g ∧
      (∃ m ∈ g.modules, ∃ r ∈ m.references, ∃ r' ∈ m.references,
        r.target = r'.target ∧ r.path ≠ r'.path) ∧
      ∃ m ∈ g.modules, ∃ r ∈ m.references, r.path ∉ g.modules.map Module.path := by
  have hplain : ∀ p ∈ shadowedPaths, p.isAbsolute ∧ p.clean = p := by decide +kernel
  have hok : (buildGraph shadowed.fileSystem .default ⟨"/p/main.lua"⟩).result.map
      (fun g => decide ((∃ m ∈ g.modules, ∃ r ∈ m.references, ∃ r' ∈ m.references,
          r.target = r'.target ∧ r.path ≠ r'.path) ∧
        ∃ m ∈ g.modules, ∃ r ∈ m.references, r.path ∉ g.modules.map Module.path)) = .ok true := by
    decide +kernel
  obtain ⟨g, hg, hshared⟩ := exists_of_map_eq_ok hok
  exact ⟨fun p hp => ⟨(hplain p hp).1, (hplain p hp).2⟩, by decide, by decide +kernel, g, hg,
    of_decide_eq_true hshared⟩

end LuaBundle

import LuaBundle.Watch.Loop
import LuaBundle.Proofs.File.Tree
import LuaBundle.Proofs.Module.Breakage

namespace LuaBundle

-- The module that an error finds fault with, unless it is a file that cannot be used at all.
def BundleError.requester? : BundleError → Option Path
  | unresolved _ requester => some requester
  | dynamic requester _ => some requester
  | file _ _ => none

namespace Tree

variable {t : Tree} {options : Options} {entry start p : Path} {g : Graph} {e : BundleError}

theorem isFile_canonicalize (h : t.isFile p) : ∃ q, t.canonicalize p = .ok q := by
  cases hl : t.locate false p with
  | error => simp [isFile, find?, hl] at h
  | ok place => exact ⟨place.path, by rw [canonicalize, hl]; rfl⟩

theorem eq_unresolved_of_locate {literal : String}
    (h : (Builder.of t.fileSystem options start).locator.locate literal p = .error e) :
    e = .unresolved literal p :=
  Builder.eq_unresolved_of_locate (fun _ => isFile_canonicalize) h

theorem distinct (ht : t.Straight t.here) (options : Options) (start : Path) :
    (Builder.of t.fileSystem options start).Distinct := by
  rintro p q ⟨_, hp⟩ ⟨_, hq⟩ he
  exact (plain_of_canonicalize ht hp).eq_of_equiv (plain_of_canonicalize ht hq) he

-- What fails in a file with fault got as far as a file.
theorem canonicalize_of_requester (h : (buildGraph t.fileSystem options entry).result = .error e)
    (hp : e.requester? = some p) : ∃ start, t.canonicalize entry = .ok start := by
  cases hstart : t.canonicalize entry with
  | ok start => exact ⟨start, rfl⟩
  | error cause =>
    have hstart : t.fileSystem.canonicalize entry = .error cause := hstart
    simp only [buildGraph, hstart] at h
    cases h
    cases hp

end Tree

namespace Watch

variable {w : Work} {t t' : Tree} {paths more : List Path} {start p q : Path} {job : Job}
  {g : Graph} {e : BundleError} {v : Watcher}

section Lists

-- A list names a place, in whatever spelling.
def Lists (paths : List Path) (p : Path) : Prop :=
  ∃ q ∈ paths, q ≈ p

instance (paths : List Path) (p : Path) : Decidable (Lists paths p) :=
  inferInstanceAs (Decidable (∃ q ∈ paths, q ≈ p))

theorem Lists.of_mem (h : p ∈ paths) : Lists paths p :=
  ⟨p, h, Setoid.refl p⟩

theorem lists_addPath : Lists (addPath paths p) q ↔ Lists paths q ∨ p ≈ q := by
  unfold addPath
  split
  case isTrue h =>
    obtain ⟨r, hr, he⟩ : Lists paths p := by simpa [Lists] using h
    exact ⟨.inl, fun h => h.elim id fun h => ⟨r, hr, Setoid.trans he h⟩⟩
  case isFalse => simp [Lists, or_and_right, exists_or]

theorem lists_foldl_addPath :
    Lists (more.foldl addPath paths) p ↔ Lists paths p ∨ Lists more p := by
  induction more generalizing paths with
  | nil => simp [Lists]
  | cons q more ih =>
    rw [List.foldl_cons, ih, lists_addPath, or_assoc]
    simp [Lists]

-- The files of work are those of its jobs, each on its own.
theorem lists_files :
    Lists (files w t).1 p ↔ ∃ job ∈ w.jobs, Lists (jobFiles w.options t job).1 p := by
  have hfold : Lists (files w t).1 p ↔ Lists [] p ∨
      Lists ((w.jobs.map (jobFiles w.options t)).flatMap (·.1)) p := lists_foldl_addPath
  rw [hfold]
  simp only [Lists, List.flatMap_map, List.mem_flatMap, List.not_mem_nil]
  grind

theorem lists_files_iff_of_mem (hjob : job ∈ w.jobs) :
    Lists (files w t).1 p ↔ Lists (jobFiles w.options t job).1 p ∨
      ∃ other ∈ w.jobs, other ≠ job ∧ Lists (jobFiles w.options t other).1 p := by
  rw [lists_files]
  constructor
  case mp =>
    rintro ⟨other, hother, hlists⟩
    by_cases heq : other = job
    case pos => exact .inl (heq ▸ hlists)
    case neg => exact .inr ⟨other, hother, heq, hlists⟩
  case mpr =>
    rintro (hlists | ⟨other, hother, -, hlists⟩)
    case inl => exact ⟨job, hjob, hlists⟩
    case inr => exact ⟨other, hother, hlists⟩

theorem lists_directories {d : Path} (h : p ∈ paths) (hd : p.parent? = some d) :
    Lists (directories paths) d :=
  lists_foldl_addPath.mpr (.inr (.of_mem (List.mem_filterMap.mpr ⟨p, h, hd⟩)))

theorem jobFiles_of_ok (h : (buildGraph t.fileSystem w.options job.entry).result = .ok g) :
    (jobFiles w.options t job).1 = g.modules.map (·.path) := by
  simp only [jobFiles, h]

theorem jobFiles_of_error (h : (buildGraph t.fileSystem w.options job.entry).result = .error e)
    (hstart : t.canonicalize job.entry = .ok start) : (jobFiles w.options t job).1 = [start] := by
  simp only [jobFiles, h, hstart]
  rfl

end Lists

end Watch

section Loop

variable {w : Work} {t : Tree} {v v' : Watcher} {now later : Nat} {r : Report} {p : Path}

theorem Debouncer.quiet_ready (d : Debouncer) (now : Nat) : (d.ready now).2.quiet = d.quiet := by
  unfold ready
  split
  · split <;> rfl
  · rfl

namespace Watcher

theorem round_eq_none (h : v.round w t now = (v', none)) :
    (v.debouncer.ready now).1 = false ∧ v' = { v with debouncer := (v.debouncer.ready now).2 } := by
  unfold round at h
  split at h
  case h_1 d hd =>
    rw [hd]
    exact ⟨rfl, (congrArg Prod.fst h).symm⟩
  case h_2 => cases congrArg Prod.snd h

theorem round_eq_some (h : v.round w t now = (v', some r)) :
    (v.debouncer.ready now).1 = true ∧
      turn v.directories (v.debouncer.ready now).2 "\nModule changed, re-bundling...\n" w t =
        (v', r) := by
  unfold round at h
  split at h
  case h_1 => cases congrArg Prod.snd h
  case h_2 d hd =>
    rw [hd]
    obtain ⟨rfl, rfl⟩ : _ ∧ _ := by simpa using h
    exact ⟨rfl, rfl⟩

-- The work is done again as soon as nothing has changed for a while.
theorem isSome_round (h : v.debouncer.pending = some now) :
    (v.round w t later).2.isSome ↔ v.debouncer.quiet ≤ later - now := by
  have hready : (v.debouncer.ready later).1 = true ↔ v.debouncer.quiet ≤ later - now := by
    rw [Debouncer.ready, h]
    dsimp only
    split <;> simp_all
  rw [← hready, round]
  split
  case h_1 d hd => simp [hd]
  case h_2 d hd => simp [hd]

-- News of a file that is known by its own path.
theorem hear_of_canonicalize (v : Watcher) (now : Nat) (h : t.canonicalize p = .ok p) :
    v.hear t now [p] =
      if Watch.Lists v.files p then { v with debouncer := v.debouncer.touch now } else v := by
  unfold hear
  refine if_congr ?_ rfl rfl
  simp [h, Except.toOption, Watch.Lists]

end Watcher

end Loop

namespace Watch

variable {w : Work} {t t' : Tree} {p q : Path} {v : Watcher}

section Concern

-- The files that a watch is for: the modules of jobs, and the file in which a job fails.
inductive Concern (w : Work) (t : Tree) : Path → Prop
  | module {job : Job} {g : Graph} {m : Module} (hjob : job ∈ w.jobs)
      (hg : (buildGraph t.fileSystem w.options job.entry).result = .ok g) (hm : m ∈ g.modules) :
      Concern w t m.path
  | fault {job : Job} {e : BundleError} {p : Path} (hjob : job ∈ w.jobs)
      (he : (buildGraph t.fileSystem w.options job.entry).result = .error e)
      (hp : e.requester? = some p) : Concern w t p

theorem Concern.exists_canonicalize (h : Concern w t p) (ht : t.Straight t.here) :
    ∃ q, t.canonicalize q = .ok p := by
  cases h with
  | @module job g m hjob hg hm =>
    obtain ⟨start, hstart, hneeded⟩ := Builder.needed_of_buildGraph hg
    exact (hneeded m hm).located ⟨_, hstart⟩
  | @fault job e _ hjob he hp =>
    obtain ⟨start, hstart⟩ := Tree.canonicalize_of_requester he hp
    obtain ⟨n, q, hq, hbreaks, -⟩ := Builder.breaks_of_buildGraph (Tree.distinct ht w.options)
      Tree.eq_unresolved_of_locate hstart he
    obtain rfl : q = p := by cases hbreaks <;> simp_all [BundleError.requester?]
    exact (Builder.needed_iff_exists_nth?.mpr ⟨n, hq⟩).located ⟨_, hstart⟩

end Concern

section Watching

-- The watches that some work comes to, each with the tree that it has looked at last.
inductive Watching (w : Work) : Tree → Watcher → Prop
  | start (t : Tree) : Watching w (Watcher.start w t).2.tree (Watcher.start w t).1
  | hear {t : Tree} {v : Watcher} (h : Watching w t v) (t' : Tree) (now : Nat)
      (changed : List Path) : Watching w t (v.hear t' now changed)
  | idle {t t' : Tree} {v v' : Watcher} {now : Nat} (h : Watching w t v)
      (hround : v.round w t' now = (v', none)) : Watching w t v'
  | again {t t' : Tree} {v v' : Watcher} {now : Nat} {r : Report} (h : Watching w t v)
      (hround : v.round w t' now = (v', some r)) : Watching w r.tree v'

-- A watch goes by the tree that it has looked at.
structure Attentive (w : Work) (t : Tree) (v : Watcher) : Prop where
  files : v.files = (Watch.files w t).1
  directories : ∀ f ∈ v.files, ∀ d, f.parent? = some d → Lists v.directories d
  quiet : v.debouncer.quiet = Watcher.quiet

theorem attentive_of_turn {ds : List Path} {d : Debouncer} {line : String} {r : Report}
    (hd : d.quiet = Watcher.quiet) (h : Watcher.turn ds d line w t = (v, r)) :
    Attentive w r.tree v := by
  cases h
  exact ⟨rfl, fun _ hf _ hd => lists_foldl_addPath.mpr (.inr (lists_directories hf hd)), hd⟩

theorem Watching.attentive (h : Watching w t v) : Attentive w t v := by
  induction h with
  | start t => exact attentive_of_turn rfl rfl
  | hear h t' now changed ih =>
    unfold Watcher.hear
    split
    · exact ⟨ih.files, ih.directories, ih.quiet⟩
    · exact ih
  | idle h hround ih =>
    obtain ⟨-, rfl⟩ := Watcher.round_eq_none hround
    exact ⟨ih.files, ih.directories, (Debouncer.quiet_ready _ _).trans ih.quiet⟩
  | again h hround ih =>
    obtain ⟨-, hturn⟩ := Watcher.round_eq_some hround
    exact attentive_of_turn ((Debouncer.quiet_ready _ _).trans ih.quiet) hturn

-- A watch hears of an edit of a file that it is for if the file is listed, and else it does not.
theorem Watching.hear_edit {content : ByteArray} {edited : Tree} (h : Watching w t v)
    (ht : t.Straight t.here) (hp : Concern w t p) (hedit : t.write p content = .ok edited)
    (now : Nat) : v.hear edited now [p] =
      if Lists (files w t).1 p then { v with debouncer := v.debouncer.touch now } else v := by
  obtain ⟨q, hq⟩ := hp.exists_canonicalize ht
  rw [v.hear_of_canonicalize now (Tree.canonicalize_of_write ht hq hedit), h.attentive.files]

end Watching

-- Bundles that are printed leave the tree as it is.
theorem runEach_map_print (options : Options) (t : Tree) (entries : List Path) :
    (Job.runEach options t (entries.map .print)).1 = t := by
  induction entries with
  | nil => rfl
  | cons entry entries ih =>
    have hrun : ((Job.print entry).run options t).tree = t := by
      simp only [Job.run]
      split <;> rfl
    simp only [List.map_cons, Job.runEach, hrun, ih]

-- A watch does the work again after an edit of a file that it is for if and only if the file is
-- listed. The modules of a job that succeeds are. For one that fails its entry is, but the file
-- in which it fails is only where that is the entry, or where another job has it.
theorem hears_listed_edits (w : Work) (t : Tree) :
    (∀ job ∈ w.jobs, ∀ g, (buildGraph t.fileSystem w.options job.entry).result = .ok g →
      ∀ m ∈ g.modules, Lists (files w t).1 m.path) ∧
    (∀ job ∈ w.jobs, ∀ e p, (buildGraph t.fileSystem w.options job.entry).result = .error e →
      e.requester? = some p → ∃ start, t.canonicalize job.entry = .ok start ∧
        Lists (files w t).1 start ∧
        (Lists (files w t).1 p ↔ start ≈ p ∨
          ∃ other ∈ w.jobs, other ≠ job ∧ Lists (jobFiles w.options t other).1 p)) ∧
    ∀ v, Watching w t v →
      (∀ f ∈ v.files, ∀ d, f.parent? = some d → Lists v.directories d) ∧
      ∀ p, t.Straight t.here → Concern w t p →
        ∀ content edited now, t.write p content = .ok edited →
          (Lists (files w t).1 p → ∀ t' later,
            (((v.hear edited now [p]).round w t' later).2.isSome ↔ now + 100 ≤ later)) ∧
          (¬ Lists (files w t).1 p → v.hear edited now [p] = v) := by
  refine ⟨fun job hjob g hg m hm => ?_, fun job hjob e p he hp => ?_,
    fun v hv => ⟨hv.attentive.directories, fun p ht hp content edited now hedit => ?_⟩⟩
  · exact lists_files.mpr ⟨job, hjob, jobFiles_of_ok hg ▸ .of_mem (List.mem_map_of_mem hm)⟩
  · obtain ⟨start, hstart⟩ := Tree.canonicalize_of_requester he hp
    have hfiles := jobFiles_of_error he hstart
    refine ⟨start, hstart, ?_, ?_⟩
    · exact lists_files.mpr ⟨job, hjob, hfiles ▸ .of_mem List.mem_cons_self⟩
    · rw [lists_files_iff_of_mem hjob, hfiles]
      simp [Lists]
  · refine ⟨fun hlists t' later => ?_, fun hlists => ?_⟩
    · have hquiet : v.debouncer.quiet = 100 := hv.attentive.quiet
      rw [hv.hear_edit ht hp hedit now, if_pos hlists, Watcher.isSome_round rfl]
      simp only [Debouncer.touch, hquiet]
      omega
    · rw [hv.hear_edit ht hp hedit now, if_neg hlists]

-- A program that fails behind its entry, and one that is fine.
def halfBroken : Tree where
  entries :=
    [(["p"], .directory),
      (["p", "main.lua"], .file "require './a'".toUTF8),
      (["p", "a.lua"], .file "require './gone'".toUTF8),
      (["p", "b.lua"], .file "require './c'".toUTF8),
      (["p", "c.lua"], .file "return 1".toUTF8)]
  here := ["p"]

def halfBrokenWork : Work :=
  ⟨.default, [.print ⟨"main.lua"⟩, .print ⟨"b.lua"⟩]⟩

-- The same with a first program that lacks nothing.
def mended : Tree :=
  halfBroken.put ["p", "a.lua"] (.file "return 2".toUTF8)

-- The file with the fault is not listed, and no watch hears of the edit that mends the program.
theorem not_hears_fault_halfBroken :
    ¬ (∀ w t p, Concern w t p → Lists (files w t).1 p) ∧
    (buildGraph halfBroken.fileSystem .default ⟨"main.lua"⟩).result.map (·.ids) =
      .error (.unresolved "./gone" ⟨"/p/a.lua"⟩) ∧
    ¬ Lists (files halfBrokenWork halfBroken).1 ⟨"/p/a.lua"⟩ ∧
    (buildGraph mended.fileSystem .default ⟨"main.lua"⟩).result.map (·.ids) =
      .ok [⟨"main"⟩, ⟨"a"⟩] ∧
    ∀ v now, Watching halfBrokenWork halfBroken v → v.hear mended now [⟨"/p/a.lua"⟩] = v := by
  have herror : (buildGraph halfBroken.fileSystem halfBrokenWork.options
      (Job.print ⟨"main.lua"⟩).entry).result.map (·.ids) =
        .error (.unresolved "./gone" ⟨"/p/a.lua"⟩) := by
    decide +kernel
  have hlists : ¬ Lists (files halfBrokenWork halfBroken).1 ⟨"/p/a.lua"⟩ := by decide +kernel
  refine ⟨fun h => hlists (h _ _ _ ?_), herror, hlists, by decide +kernel, fun v now hv => ?_⟩
  · have hjob : Job.print ⟨"main.lua"⟩ ∈ halfBrokenWork.jobs := by decide
    exact .fault hjob (eq_error_of_map_eq_error herror) rfl
  · have hpath : mended.canonicalize ⟨"/p/a.lua"⟩ = .ok ⟨"/p/a.lua"⟩ := by decide +kernel
    rw [v.hear_of_canonicalize now hpath, if_neg (hv.attentive.files ▸ hlists)]

theorem hears_listed_edits_halfBroken :
    Lists (files halfBrokenWork halfBroken).1 ⟨"/p/c.lua"⟩ ∧
    Lists (files halfBrokenWork halfBroken).1 ⟨"/p/main.lua"⟩ ∧
    ∃ edited, halfBroken.write ⟨"/p/c.lua"⟩ "return 2".toUTF8 = .ok edited ∧
      (((Watcher.start halfBrokenWork halfBroken).1.hear edited 0 [⟨"/p/c.lua"⟩]).round
        halfBrokenWork edited 100).2.isSome := by
  obtain ⟨hok, herror, hwatch⟩ := hears_listed_edits halfBrokenWork halfBroken
  have htree : (Watcher.start halfBrokenWork halfBroken).2.tree = halfBroken :=
    runEach_map_print _ _ [⟨"main.lua"⟩, ⟨"b.lua"⟩]
  have hwatching : Watching halfBrokenWork halfBroken
      (Watcher.start halfBrokenWork halfBroken).1 := by
    have h := Watching.start (w := halfBrokenWork) halfBroken
    rwa [htree] at h
  have hstraight : halfBroken.Straight halfBroken.here :=
    .step .root rfl (Path.isName_iff.mpr (by decide)) (e := .directory) rfl (by simp)
  have hmain : Job.print ⟨"main.lua"⟩ ∈ halfBrokenWork.jobs := by decide
  have hb : Job.print ⟨"b.lua"⟩ ∈ halfBrokenWork.jobs := by decide
  -- The job that is fine has the module `c`.
  have hok' : (buildGraph halfBroken.fileSystem halfBrokenWork.options
      (Job.print ⟨"b.lua"⟩).entry).result.map (·.modules.map (·.path)) =
        .ok [⟨"/p/b.lua"⟩, ⟨"/p/c.lua"⟩] := by
    decide +kernel
  obtain ⟨g, hg, hpaths⟩ := exists_of_map_eq_ok hok'
  obtain ⟨m, hm, hpath⟩ : ∃ m ∈ g.modules, m.path = ⟨"/p/c.lua"⟩ :=
    List.mem_map.mp (hpaths ▸ by simp)
  have hlists : Lists (files halfBrokenWork halfBroken).1 m.path := hok _ hb g hg m hm
  -- The other one fails in `a`.
  have hfault : (buildGraph halfBroken.fileSystem halfBrokenWork.options
      (Job.print ⟨"main.lua"⟩).entry).result = .error (.unresolved "./gone" ⟨"/p/a.lua"⟩) :=
    eq_error_of_map_eq_error (f := Graph.ids) (by decide +kernel)
  obtain ⟨start, hstart, hentry, -⟩ := herror _ hmain _ _ hfault rfl
  have hstart' : halfBroken.canonicalize (Job.print ⟨"main.lua"⟩).entry = .ok ⟨"/p/main.lua"⟩ := by
    decide +kernel
  obtain rfl := Except.ok.inj (hstart'.symm.trans hstart)
  -- Writing to `c` succeeds.
  obtain ⟨edited, hedit⟩ : ∃ edited, halfBroken.write m.path "return 2".toUTF8 = .ok edited := by
    have hwrite : (halfBroken.write ⟨"/p/c.lua"⟩ "return 2".toUTF8).toBool := by decide +kernel
    rw [hpath]
    cases h : halfBroken.write ⟨"/p/c.lua"⟩ "return 2".toUTF8 with
    | error => rw [h] at hwrite; cases hwrite
    | ok edited => exact ⟨edited, rfl⟩
  have hedits := (hwatch _ hwatching).2 m.path hstraight
    (.module hb hg hm) _ edited 0 hedit
  have hagain := (hedits.1 hlists edited 100).mpr le_rfl
  rw [hpath] at hlists hedit hagain
  exact ⟨hlists, hentry, edited, hedit, hagain⟩

end Watch
end LuaBundle

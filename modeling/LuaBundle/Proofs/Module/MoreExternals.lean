import LuaBundle.Proofs.Module.Breakage

namespace LuaBundle

-- A call with the file that it means.
def Reference.resolved (r : Reference) : StaticCall × Path :=
  (r.call, r.path)

namespace Builder

variable {b b' : Builder} {start p : Path} {m : Module} {found : Findings}

-- A builder that looks files up as another one does and leaves more names to the host.
structure LeavesMore (b b' : Builder) : Prop where
  locator : b'.locator = b.locator
  external : ∀ name, b.options.isExternal name → b'.options.isExternal name

-- The calls of a file that are bundled, each with the file that it means.
def resolutions (b : Builder) (p : Path) : List (StaticCall × Path) :=
  (b.bundledCalls p).filterMap fun c =>
    (b.locator.locate c.literal p).toOption.map fun q => (c, q)

theorem Faithful.resolutions_eq (h : b.Faithful found m) :
    b.resolutions m.path = m.references.map Reference.resolved := by
  obtain ⟨requires, hscan, hcalls⟩ := h.scanned
  rw [resolutions, bundledCalls_eq h.read hscan, ← hcalls, List.filterMap_map,
    ← List.filterMap_eq_map]
  refine List.filterMap_congr fun r hr => ?_
  have hlocate : b.locator.locate r.call.literal m.path = .ok r.path := h.located r hr
  simp [hlocate, Except.toOption, Reference.resolved]

namespace LeavesMore

theorem not_external (h : b.LeavesMore b') {name : String}
    (hn : b'.options.isExternal name = false) : b.options.isExternal name = false := by
  cases he : b.options.isExternal name with
  | false => rfl
  | true => simp [h.external name he] at hn

-- With fewer calls to follow fewer files are needed.
theorem needed (h : b.LeavesMore b') (hp : b'.Needed start p) : b.Needed start p := by
  induction hp with
  | start => exact .start
  | call _ hread hscan hcall hexternal hlocate ih =>
    rw [h.locator] at hread hlocate
    exact .call ih hread hscan hcall (h.not_external hexternal) hlocate

theorem intact (h : b.LeavesMore b') (hp : b.Intact p) : b'.Intact p := by
  obtain ⟨source, requires, hread, hscan, hcalls⟩ := hp
  refine ⟨source, requires, h.locator ▸ hread, hscan, fun call hcall => ?_⟩
  rcases hcalls call hcall with he | ⟨q, hq⟩
  case inl => exact .inl (h.external _ he)
  case inr => exact .inr ⟨q, h.locator ▸ hq⟩

theorem bundledCalls_eq (h : b.LeavesMore b') (p : Path) :
    b'.bundledCalls p =
      (b.bundledCalls p).filter fun c => !b'.options.isExternal c.literal := by
  have hboth (c : StaticCall) :
      (!b'.options.isExternal c.literal) =
        (!b'.options.isExternal c.literal && !b.options.isExternal c.literal) := by
    cases he : b'.options.isExternal c.literal with
    | true => rfl
    | false => simp [h.not_external he]
  unfold bundledCalls
  rw [h.locator]
  cases b.locator.files.read p with
  | error => rfl
  | ok source =>
    dsimp only
    cases Requires.of source with
    | error => rfl
    | ok requires =>
      rw [List.filter_filter]
      exact List.filter_congr fun c _ => hboth c

-- What is left of the resolutions of a file.
theorem resolutions_eq (h : b.LeavesMore b') (p : Path) :
    b'.resolutions p =
      (b.resolutions p).filter fun r => !b'.options.isExternal r.1.literal := by
  rw [resolutions, resolutions, h.bundledCalls_eq, h.locator, List.filterMap_filter,
    List.filter_filterMap]
  refine List.filterMap_congr fun c _ => ?_
  cases b.locator.locate c.literal p with
  | error => simp [Except.toOption]
  | ok q =>
    cases he : b'.options.isExternal c.literal <;> simp [Except.toOption, Option.filter, he]

end LeavesMore

end Builder

namespace Memory

variable {m : Memory} {options : Options} {entry start : Path}

-- A build of intact files succeeds.
theorem Built.exists_graph (hm : m.Built) (hs : m.canonicalize entry = .ok start)
    (hintact : ∀ p, (Builder.of m.fileSystem options start).Needed start p →
      (Builder.of m.fileSystem options start).Intact p) :
    ∃ g, (buildGraph m.fileSystem options entry).result = .ok g := by
  cases h : (buildGraph m.fileSystem options entry).result with
  | ok g => exact ⟨g, rfl⟩
  | error e =>
    obtain ⟨n, p, hp, hbroken, -⟩ := Builder.breaks_of_buildGraph (hm.distinct options)
      eq_unresolved_of_locate hs h
    have hneeded := Builder.needed_iff_exists_nth?.mpr ⟨n, hp⟩
    exact absurd (hintact p hneeded) hbroken.not_intact

end Memory

-- A build that leaves more names to the host succeeds as well. Its modules are files that were
-- modules before, if the files read apart, and those that were have the same text and keep those
-- of their references whose names are still bundled, in order and with the same files.
theorem buildGraph_more_externals {m : Memory} {options : Options} {entry : Path} {g : Graph}
    {more : List String} (hm : m.Regular) (hmore : options.externals ⊆ more)
    (h : (buildGraph m.fileSystem options entry).result = .ok g) :
    ∃ g', (buildGraph m.fileSystem { options with externals := more } entry).result = .ok g' ∧
      (m.ReadsApart options entry → g'.modules.map Module.path ⊆ g.modules.map Module.path) ∧
      ∀ x ∈ g.modules, ∀ x' ∈ g'.modules, x'.path = x.path → x'.source = x.source ∧
        x'.references.map Reference.resolved =
          (x.references.filter fun r => r.literal ∉ more).map Reference.resolved := by
  obtain ⟨start, hstart, hintact⟩ := Builder.intact_of_buildGraph (hm.built.distinct options) h
  have hleaves : (Builder.of m.fileSystem options start).LeavesMore
      (Builder.of m.fileSystem { options with externals := more } start) := by
    refine ⟨rfl, fun name hname => ?_⟩
    have hname : name ∈ options.externals := by
      simpa [Builder.of, Options.isExternal] using hname
    simpa [Builder.of, Options.isExternal] using hmore hname
  obtain ⟨g', h'⟩ := hm.built.exists_graph hstart
    fun p hp => hleaves.intact (hintact p (hleaves.needed hp))
  refine ⟨g', h', fun ha p hp => ?subset, fun x hx x' hx' hpath => ?references⟩
  case subset =>
    obtain ⟨start₁, s, hstart₁, hb, he, hpending, hfound, -⟩ := hm.explored ha h
    obtain rfl : start₁ = start := Except.ok.inj (hstart₁.symm.trans hstart)
    obtain ⟨start₂, hstart₂, hneeded⟩ := Builder.needed_of_buildGraph h'
    obtain rfl : start₂ = start₁ := Except.ok.inj (hstart₂.symm.trans hstart)
    obtain ⟨x', hx', rfl⟩ := List.mem_map.mp hp
    exact List.mem_map.mpr ((hleaves.needed (hneeded x' hx')).exists_module hb he hpending hfound)
  case references =>
    obtain ⟨_, hfaithful⟩ := Builder.faithful_of_buildGraph hstart h hx
    obtain ⟨_, hfaithful'⟩ := Builder.faithful_of_buildGraph hstart h' hx'
    refine ⟨Except.ok.inj ((hpath ▸ hfaithful'.read).symm.trans hfaithful.read), ?_⟩
    calc
      x'.references.map Reference.resolved
      _ = (Builder.of m.fileSystem { options with externals := more } start).resolutions x.path := by
        rw [← hpath, hfaithful'.resolutions_eq]
      _ = (x.references.map Reference.resolved).filter fun r => r.1.literal ∉ more := by
        rw [hleaves.resolutions_eq, hfaithful.resolutions_eq]
        simp [Builder.of, Options.isExternal]
      _ = (x.references.filter fun r => r.literal ∉ more).map Reference.resolved := by
        rw [List.filter_map]
        rfl

-- A file that takes the id of another one as long as it is bundled, a file that is needed by the
-- first of them only, and a cycle.
def rivals : Memory :=
  Memory.empty
    |>.addFile ⟨"/p/main.lua"⟩ "require './a.lua' require './c' require 'host'"
    |>.addFile ⟨"/p/a.lua"⟩ "require './d'"
    |>.addFile ⟨"/p/a"⟩ "return 1"
    |>.addFile ⟨"/p/c.lua"⟩ "require './a' require './a.lua' require './main'"
    |>.addFile ⟨"/p/d.lua"⟩ "return 2"

theorem regular_rivals : rivals.Regular :=
  .of_files (.addFile (.addFile (.addFile (.addFile (.addFile .empty _ _) _ _) _ _) _ _) _ _)
    (by decide +kernel)

theorem buildGraph_more_externals_rivals :
    ∃ g g', (buildGraph rivals.fileSystem ⟨[], ["host"], "lua"⟩ ⟨"/p/main.lua"⟩).result = .ok g ∧
      (buildGraph rivals.fileSystem ⟨[], ["./a.lua", "host"], "lua"⟩ ⟨"/p/main.lua"⟩).result =
        .ok g' ∧
      g.modules.map Module.finding =
        [(⟨"main"⟩, ⟨"/p/main.lua"⟩), (⟨"a"⟩, ⟨"/p/a.lua"⟩), (⟨"c"⟩, ⟨"/p/c.lua"⟩),
          (⟨"d"⟩, ⟨"/p/d.lua"⟩), (⟨"/p/a"⟩, ⟨"/p/a"⟩)] ∧
      g'.modules.map Module.finding =
        [(⟨"main"⟩, ⟨"/p/main.lua"⟩), (⟨"c"⟩, ⟨"/p/c.lua"⟩), (⟨"a"⟩, ⟨"/p/a"⟩)] ∧
      g'.modules.map Module.path ⊆ g.modules.map Module.path ∧
      ∀ x ∈ g.modules, ∀ x' ∈ g'.modules, x'.path = x.path → x'.source = x.source ∧
        x'.references.map Reference.resolved =
          (x.references.filter fun r => r.literal ∉ ["./a.lua", "host"]).map
            Reference.resolved := by
  have hok : (buildGraph rivals.fileSystem ⟨[], ["host"], "lua"⟩ ⟨"/p/main.lua"⟩).result.map
      (fun g => g.modules.map Module.finding) =
        .ok [(⟨"main"⟩, ⟨"/p/main.lua"⟩), (⟨"a"⟩, ⟨"/p/a.lua"⟩), (⟨"c"⟩, ⟨"/p/c.lua"⟩),
          (⟨"d"⟩, ⟨"/p/d.lua"⟩), (⟨"/p/a"⟩, ⟨"/p/a"⟩)] := by
    decide +kernel
  have hok' : (buildGraph rivals.fileSystem ⟨[], ["./a.lua", "host"], "lua"⟩
      ⟨"/p/main.lua"⟩).result.map (fun g => g.modules.map Module.finding) =
        .ok [(⟨"main"⟩, ⟨"/p/main.lua"⟩), (⟨"c"⟩, ⟨"/p/c.lua"⟩), (⟨"a"⟩, ⟨"/p/a"⟩)] := by
    decide +kernel
  obtain ⟨g, hg, hfindings⟩ := exists_of_map_eq_ok hok
  obtain ⟨g₁, hg₁, hfindings₁⟩ := exists_of_map_eq_ok hok'
  have hmore : ["host"] ⊆ ["./a.lua", "host"] := by decide
  obtain ⟨g', hg', hsubset, hrest⟩ := buildGraph_more_externals regular_rivals hmore hg
  obtain rfl : g₁ = g' := Except.ok.inj (hg₁.symm.trans hg')
  exact ⟨g, g₁, hg, hg', hfindings, hfindings₁, hsubset (.of_files (by decide +kernel)), hrest⟩

-- Once the fourth file is left to the host, the third one has a module, which it had not before.
theorem buildGraph_more_modules_veiled :
    veiled.Regular ∧ Options.default.externals ⊆ ["./d"] ∧
    ∃ g g', (buildGraph veiled.fileSystem .default ⟨"/p/main.lua"⟩).result = .ok g ∧
      (buildGraph veiled.fileSystem { Options.default with externals := ["./d"] }
        ⟨"/p/main.lua"⟩).result = .ok g' ∧
      ¬ g'.modules.map Module.path ⊆ g.modules.map Module.path := by
  have hok' : (buildGraph veiled.fileSystem { Options.default with externals := ["./d"] }
      ⟨"/p/main.lua"⟩).result.map (fun g => decide (.illegible 0xFD ∈ g.modules.map Module.path)) =
        .ok true := by
    decide +kernel
  obtain ⟨g, hg, hfindings⟩ := exists_of_map_eq_ok graph_veiled
  obtain ⟨g', hg', hmem⟩ := exists_of_map_eq_ok hok'
  refine ⟨regular_veiled, List.nil_subset _, g, g', hg, hg', fun hsubset => ?_⟩
  have hpaths : g.modules.map Module.path = (g.modules.map Module.finding).map Prod.snd := by
    rw [List.map_map]
    rfl
  have hold := hsubset (of_decide_eq_true hmem)
  rw [hpaths, hfindings] at hold
  exact absurd hold (by decide +kernel)

end LuaBundle

import LuaBundle.Proofs.File.Memory
import LuaBundle.Proofs.Module.Explored

namespace LuaBundle

namespace Builder

variable {b : Builder} {start p q : Path} {s s' : Survey} {g g' : Graph} {m : Module}

-- The files that a start needs: itself, and with a file every file that one of its calls means,
-- unless the call is external.
inductive Needed (b : Builder) (start : Path) : Path → Prop
  | start : Needed b start start
  | call {p q : Path} {source : String} {requires : Requires} {call : StaticCall}
      (hp : Needed b start p) (hread : b.locator.files.read p = .ok source)
      (hscan : Requires.of source = .ok requires) (hcall : call ∈ requires.calls)
      (hexternal : b.options.isExternal call.literal = false)
      (hlocate : b.locator.locate call.literal p = .ok q) : Needed b start q

-- A turn finds needed files only.
theorem Turn.needed (h : b.Turn s m s') (hm : b.Needed start m.path)
    (hs : ∀ f ∈ s.found, b.Needed start f.2) : ∀ f ∈ s'.found, b.Needed start f.2 := by
  cases h with
  | @mk _ path pending source requires references _ _ hread hscan hfollow =>
    have hfound := follow_induction b path requires.calls
      ({ s with pending := pending }.warnValueUses path requires.valueUses)
      (motive := fun t => ∀ f ∈ t.found, b.Needed start f.2) ?_ ?_ hs
    · rwa [hfollow] at hfound
    · intro t call _ ht
      rwa [(found_meetExternal t path call).1]
    · intro t call hcall hexternal target hlocate ht
      unfold Builder.visit Survey.visit
      split
      case h_1 => exact ht
      case h_2 =>
        exact List.forall_mem_cons.mpr ⟨.call hm hread hscan hcall hexternal hlocate, ht⟩

theorem Turns.needed (h : b.Turns g s g' s') {done : List (ModuleId × Path)} (ho : Ordered done s)
    (hs : ∀ f ∈ s.found, b.Needed start f.2) : ∀ f ∈ s'.found, b.Needed start f.2 := by
  induction h generalizing done with
  | refl => exact hs
  | step turn _ ih => exact ih (turn.ordered ho) (turn.needed (hs _ (turn.mem_found ho)) hs)

theorem mem_modules_of_mem_found (h : b.Explored g s) (hp : s.pending = []) {f : ModuleId × Path}
    (hf : f ∈ s.found) : ∃ m ∈ g.modules, m.finding = f := by
  have hordered := h.ordered
  rw [Ordered, hp, List.append_nil] at hordered
  exact List.mem_map.mp (hordered ▸ List.mem_reverse.mpr hf)

-- An exploration that has no file left to turn to has a module for each needed file.
theorem Needed.exists_module (h : b.Needed start p) (hb : b.Tidy) (he : b.Explored g s)
    (hp : s.pending = []) (hstart : ∃ id, (id, start) ∈ s.found) :
    ∃ m ∈ g.modules, m.path = p := by
  induction h with
  | start =>
    obtain ⟨id, hid⟩ := hstart
    obtain ⟨m, hm, hfinding⟩ := mem_modules_of_mem_found he hp hid
    exact ⟨m, hm, congrArg Prod.snd hfinding⟩
  | @call p q source requires call _ hread hscan hcall hexternal hlocate ih =>
    obtain ⟨m, hm, rfl⟩ := ih
    have hfaithful := he.faithful m hm
    obtain rfl : m.source = source := Except.ok.inj (hfaithful.read.symm.trans hread)
    obtain ⟨requires', hscan', hcalls⟩ := hfaithful.scanned
    obtain rfl : requires' = requires := Except.ok.inj (hscan'.symm.trans hscan)
    have hmem : call ∈ m.references.map Reference.call := by
      rw [hcalls]
      exact List.mem_filter.mpr ⟨hcall, by simp [hexternal]⟩
    obtain ⟨r, hr, rfl⟩ := List.mem_map.mp hmem
    obtain rfl : r.path = q := Except.ok.inj ((hfaithful.located r hr).symm.trans hlocate)
    obtain ⟨q, hq, heq⟩ := hfaithful.found r hr
    have hplain := hb.plain _ (he.sound.located _ hq)
    obtain rfl : q = r.path := hplain.eq_of_equiv (hb.plain _ (located_of_locate hlocate)) heq
    obtain ⟨n, hn, hfinding⟩ := mem_modules_of_mem_found he hp hq
    exact ⟨n, hn, congrArg Prod.snd hfinding⟩

section Started

variable {id : ModuleId}

theorem Turns.exists_mem_found (h : b.Turns (.empty id) (b.started start) g s) :
    ∃ id, (id, start) ∈ s.found :=
  ⟨_, h.found_suffix.subset (found_started b start ▸ List.mem_cons_self)⟩

theorem Turns.needed_of_started (h : b.Turns (.empty id) (b.started start) g s) :
    ∀ f ∈ s.found, b.Needed start f.2 :=
  h.needed (b.ordered_started start) (by simp [found_started, Needed.start])

-- What a module refers to is needed with it.
theorem Needed.reference {found : Findings} {r : Reference} (h : b.Needed start m.path)
    (hm : b.Faithful found m) (hr : r ∈ m.references) : b.Needed start r.path := by
  obtain ⟨requires, hscan, hcalls⟩ := hm.scanned
  have hcall : r.call ∈ requires.calls.filter fun c => !b.options.isExternal c.literal :=
    hcalls ▸ List.mem_map_of_mem hr
  obtain ⟨hmem, hexternal⟩ := List.mem_filter.mp hcall
  exact .call h hm.read hscan hmem (by simpa using hexternal) (hm.located r hr)

-- A module of a graph is a file that the entry needs.
theorem needed_of_buildGraph {files : FiniteFiles} {options : Options} {entry : Path} {g : Graph}
    (h : (buildGraph files options entry).result = .ok g) :
    ∃ start, files.canonicalize entry = .ok start ∧
      ∀ m ∈ g.modules, (Builder.of files options start).Needed start m.path := by
  obtain ⟨start, _, s, hstart, hturns, -⟩ := exists_turns_of_buildGraph h
  have hfound := hturns.finding_mem_found ((Builder.of files options start).ordered_started start)
    (by simp [Graph.empty])
  exact ⟨start, hstart, fun m hm => hturns.needed_of_started m.finding (hfound m hm)⟩

theorem Turns.surveyed_of_started (h : b.Turns (.empty id) (b.started start) g s) (hb : b.Tidy)
    (hs : b.Located start) : b.Surveyed s :=
  h.surveyed hb (Surveyed.visit ⟨⟨.nil, by simp, .nil⟩, by simp⟩ hb hs)

-- Where no two files have the same path up to backslashes every file gets an id of its own.
theorem Turns.explored_of_started (h : b.Turns (.empty id) (b.started start) g s) (hb : b.Tidy)
    (hs : b.Located start) (hslashed : ∀ p q, b.Needed start p → b.Needed start q →
      p.slashed = q.slashed → p = q) : b.Explored g s := by
  have hneeded := h.needed_of_started
  have hsurveyed := h.surveyed_of_started hb hs
  have hsound : b.Sound s :=
    ⟨hsurveyed.apart.oneToOne fun f hf g hg => hslashed _ _ (hneeded f hf) (hneeded g hg),
      hsurveyed.located⟩
  exact h.explored
    ⟨hsound.of_suffix h.found_suffix, b.ordered_started start, by simp [Graph.empty]⟩ hsound

end Started

theorem tidy_of {files : FiniteFiles} (options : Options) {entry : Path}
    (hplain : ∀ p q, files.canonicalize p = .ok q → q.Plain)
    (hs : files.canonicalize entry = .ok start) (hne : start ≠ ⟨"/"⟩) :
    (Builder.of files options start).Tidy where
  root := Path.isAbsolute_parent (hplain entry start hs) hne
  plain p := fun ⟨q, hc⟩ => hplain q p hc

theorem Needed.located (h : b.Needed start p) (hs : b.Located start) : b.Located p := by
  cases h with
  | start => exact hs
  | call _ _ _ _ _ hlocate => exact located_of_locate hlocate

end Builder

namespace Memory

variable {m : Memory} {options : Options} {entry start : Path} {g : Graph}

theorem Regular.plain_of_canonicalize (hm : m.Regular) (p q : Path)
    (h : m.fileSystem.canonicalize p = .ok q) : q.Plain :=
  hm.plain (mem_files_of_canonicalize h)

-- Of the files that an entry needs no two read the same.
def ReadsApart (m : Memory) (options : Options) (entry : Path) : Prop :=
  ∀ start, m.canonicalize entry = .ok start → ∀ p q,
    (Builder.of m.fileSystem options start).Needed start p →
    (Builder.of m.fileSystem options start).Needed start q → p.text = q.text → p = q

theorem ReadsApart.of_files
    (h : ∀ p ∈ m.files.map Prod.fst, ∀ q ∈ m.files.map Prod.fst, p.text = q.text → p = q) :
    m.ReadsApart options entry := by
  intro start hstart p q hp hq
  obtain ⟨_, hp⟩ := hp.located ⟨entry, hstart⟩
  obtain ⟨_, hq⟩ := hq.located ⟨entry, hstart⟩
  exact h p (mem_files_of_canonicalize hp) q (mem_files_of_canonicalize hq)

-- Files whose paths are UTF-8 read apart.
theorem ReadsApart.of_utf8 (h : ∀ p ∈ m.files.map Prod.fst, p.str?.isSome) :
    m.ReadsApart options entry :=
  .of_files fun p hp q hq he => congrArg Path.mk (OsString.eq_of_text_eq (h p hp) (h q hq) he)

-- A build that succeeds takes turns until no file waits, and gives files that read apart ids of
-- their own.
theorem Regular.turns_of_buildGraph (hm : m.Regular) (ha : m.ReadsApart options entry)
    (h : (buildGraph m.fileSystem options entry).result = .ok g) :
    ∃ start s, m.canonicalize entry = .ok start ∧
      (Builder.of m.fileSystem options start).Tidy ∧
      (Builder.of m.fileSystem options start).Turns
        (.empty ((Builder.of m.fileSystem options start).visit ⟨[], [], [], []⟩ start).1)
        ((Builder.of m.fileSystem options start).started start) g s ∧
      (Builder.of m.fileSystem options start).Explored g s ∧ s.pending = [] := by
  obtain ⟨start, s, hstart, hturns, hpending⟩ := Builder.turns_of_buildGraph h
  have hb := Builder.tidy_of options hm.plain_of_canonicalize hstart
    (hm.ne_root start (mem_files_of_canonicalize hstart))
  have hs : (Builder.of m.fileSystem options start).Located start := ⟨entry, hstart⟩
  refine ⟨start, s, hstart, hb, hturns,
    hturns.explored_of_started hb hs fun p q hp hq he => ?_, hpending⟩
  have text {p : Path} (hp : (Builder.of m.fileSystem options start).Needed start p) :
      p.slashed = p.text :=
    have ⟨_, hc⟩ := hp.located hs
    Path.slashed_eq_text (hm.no_backslash p (mem_files_of_canonicalize hc))
  rw [text hp, text hq] at he
  exact ha start hstart p q hp hq he

theorem Regular.explored (hm : m.Regular) (ha : m.ReadsApart options entry)
    (h : (buildGraph m.fileSystem options entry).result = .ok g) :
    ∃ start s, m.canonicalize entry = .ok start ∧
      (Builder.of m.fileSystem options start).Tidy ∧
      (Builder.of m.fileSystem options start).Explored g s ∧ s.pending = [] ∧
      (∃ id, (id, start) ∈ s.found) ∧
      ∀ f ∈ s.found, (Builder.of m.fileSystem options start).Needed start f.2 := by
  obtain ⟨start, s, hstart, hb, hturns, he, hpending⟩ := hm.turns_of_buildGraph ha h
  exact ⟨start, s, hstart, hb, he, hpending, hturns.exists_mem_found, hturns.needed_of_started⟩

end Memory

-- A graph that is built of files that read apart has exactly one module for each needed file, under
-- an id of its own and with the text of that file.
theorem buildGraph_exact {m : Memory} {options : Options} {entry : Path} {g : Graph}
    (hm : m.Regular) (ha : m.ReadsApart options entry)
    (h : (buildGraph m.fileSystem options entry).result = .ok g) :
    ∃ start, m.canonicalize entry = .ok start ∧
      (∀ p, p ∈ g.modules.map Module.path ↔
        (Builder.of m.fileSystem options start).Needed start p) ∧
      (g.modules.map Module.path).Nodup ∧ (g.modules.map Module.id).Nodup ∧
      ∀ x ∈ g.modules, m.files.lookup x.path = some x.source := by
  obtain ⟨start, s, hstart, hb, he, hpending, hfound, hneeded⟩ := hm.explored ha h
  have hordered : s.found.reverse = g.modules.map Module.finding := by
    rw [he.ordered, hpending, List.append_nil]
  have hmem : ∀ x ∈ g.modules, x.finding ∈ s.found := fun x hx =>
    List.mem_reverse.mp (hordered ▸ List.mem_map_of_mem hx)
  refine ⟨start, hstart, fun p => ⟨fun hp => ?_, fun hp => ?_⟩, ?_, g.nodup_ids, fun x hx => ?_⟩
  · obtain ⟨x, hx, rfl⟩ := List.mem_map.mp hp
    exact hneeded _ (hmem x hx)
  · exact List.mem_map.mpr (hp.exists_module hb he hpending hfound)
  · have hpaths : (s.found.map Prod.snd).Nodup := by
      refine List.pairwise_map.mpr (he.sound.oneToOne.paths.imp fun hne heq => hne ?_)
      exact heq ▸ Setoid.refl _
    rw [← List.nodup_reverse, ← List.map_reverse, hordered, List.map_map] at hpaths
    exact hpaths
  · exact (hm.read_eq_ok_iff (he.sound.known _ (hmem x hx))).mp (he.faithful x hx).read

-- Two files that want the same id, one of them required through a link, and a cycle.
def crossed : Memory :=
  Memory.empty
    |>.addFile ⟨"/p/main.lua"⟩ "require './a' require 'alias'"
    |>.addFile ⟨"/p/a"⟩ "require './main'"
    |>.addFile ⟨"/p/./a.lua"⟩ "return 1"
    |>.addFile ⟨"/p/other.lua"⟩ "return 2"
    |>.addLink ⟨"/p/alias.lua"⟩ ⟨"/p/a.lua"⟩

theorem regular_crossed : crossed.Regular :=
  .of_files (.addLink (.addFile (.addFile (.addFile (.addFile .empty _ _) _ _) _ _) _ _) _ _)
    (by decide +kernel)

theorem buildGraph_exact_crossed :
    ∃ g, (buildGraph crossed.fileSystem .default ⟨"/p/main.lua"⟩).result = .ok g ∧
      g.modules.map Module.finding =
        [(⟨"main"⟩, ⟨"/p/main.lua"⟩), (⟨"a"⟩, ⟨"/p/a"⟩), (⟨"a.lua"⟩, ⟨"/p/a.lua"⟩)] ∧
      ∃ start, crossed.canonicalize ⟨"/p/main.lua"⟩ = .ok start ∧
        (∀ p, p ∈ g.modules.map Module.path ↔
          (Builder.of crossed.fileSystem .default start).Needed start p) ∧
        (g.modules.map Module.path).Nodup ∧ (g.modules.map Module.id).Nodup ∧
        ∀ x ∈ g.modules, crossed.files.lookup x.path = some x.source := by
  have hok : (buildGraph crossed.fileSystem .default ⟨"/p/main.lua"⟩).result.map
      (fun g => g.modules.map Module.finding) =
        .ok [(⟨"main"⟩, ⟨"/p/main.lua"⟩), (⟨"a"⟩, ⟨"/p/a"⟩), (⟨"a.lua"⟩, ⟨"/p/a.lua"⟩)] := by
    decide +kernel
  obtain ⟨g, hg, hfindings⟩ := exists_of_map_eq_ok hok
  exact ⟨g, hg, hfindings, buildGraph_exact regular_crossed (.of_files (by decide +kernel)) hg⟩

-- Files that are required through links and have names of one byte that is not UTF-8, but for the
-- ending. The third and the fourth get the same whole path for an id, so that of the third no more
-- is heard, but `e` waits for its turn already.
def veiled : Memory :=
  Memory.empty
    |>.addFile ⟨"/p/main.lua"⟩ "require './a' require './b' require './c' require './d'"
    |>.addFile (.illegible 0xFF) "return 1"
    |>.addFile (.illegible 0xFE) "return 2"
    |>.addFile (.illegible 0xFD) "require './e' local f = require"
    |>.addFile (.illegible 0xFC) "return 4"
    |>.addFile ⟨"/p/e.lua"⟩ "return 5"
    |>.addLink ⟨"/p/a"⟩ (.illegible 0xFF)
    |>.addLink ⟨"/p/b"⟩ (.illegible 0xFE)
    |>.addLink ⟨"/p/c"⟩ (.illegible 0xFD)
    |>.addLink ⟨"/p/d"⟩ (.illegible 0xFC)

theorem regular_veiled : veiled.Regular :=
  .of_files (.addLink (.addLink (.addLink (.addLink (.addFile (.addFile (.addFile (.addFile (.addFile
    (.addFile .empty _ _) _ _) _ _) _ _) _ _) _ _) _ _) _ _) _ _) _ _) (by decide +kernel)

theorem graph_veiled :
    (buildGraph veiled.fileSystem .default ⟨"/p/main.lua"⟩).result.map
      (fun g => g.modules.map Module.finding) =
    .ok [(⟨"main"⟩, ⟨"/p/main.lua"⟩), (⟨"\uFFFD"⟩, .illegible 0xFF),
      (⟨"\uFFFD.lua"⟩, .illegible 0xFE), (⟨"/p/\uFFFD.lua"⟩, .illegible 0xFC),
      (⟨"e"⟩, ⟨"/p/e.lua"⟩)] := by
  decide +kernel

theorem start_veiled : veiled.canonicalize ⟨"/p/main.lua"⟩ = .ok ⟨"/p/main.lua"⟩ := by
  decide +kernel

-- Although the files are regular, one that the entry needs has no module.
theorem buildGraph_not_exact_veiled :
    veiled.Regular ∧ veiled.canonicalize ⟨"/p/main.lua"⟩ = .ok ⟨"/p/main.lua"⟩ ∧
    ∃ g, (buildGraph veiled.fileSystem .default ⟨"/p/main.lua"⟩).result = .ok g ∧
      ∃ p, (Builder.of veiled.fileSystem .default ⟨"/p/main.lua"⟩).Needed ⟨"/p/main.lua"⟩ p ∧
        p ∉ g.modules.map Module.path := by
  have hok : (buildGraph veiled.fileSystem .default ⟨"/p/main.lua"⟩).result.map
      (fun g => decide (∃ m ∈ g.modules, ∃ r ∈ m.references,
        r.path ∉ g.modules.map Module.path)) = .ok true := by
    decide +kernel
  obtain ⟨g, hg, hlost⟩ := exists_of_map_eq_ok hok
  obtain ⟨m, hm, r, hr, hlost⟩ := of_decide_eq_true hlost
  obtain ⟨_, hfaithful⟩ := Builder.faithful_of_buildGraph start_veiled hg hm
  obtain ⟨start, hs, hneeded⟩ := Builder.needed_of_buildGraph hg
  obtain rfl : start = ⟨"/p/main.lua"⟩ := Except.ok.inj (hs.symm.trans start_veiled)
  exact ⟨regular_veiled, start_veiled, g, hg, r.path, (hneeded m hm).reference hfaithful hr, hlost⟩

end LuaBundle

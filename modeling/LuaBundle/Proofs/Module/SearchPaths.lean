import LuaBundle.Bundle.Emit
import LuaBundle.File.Memory
import LuaBundle.Proofs.Module.Simulation

namespace LuaBundle

namespace Options

theorem prefix_foldl_addSearchPath (paths more : List Path) :
    paths <+: more.foldl addSearchPath paths := by
  induction more generalizing paths with
  | nil => exact List.prefix_rfl
  | cons p more ih =>
    have hp : paths <+: addSearchPath paths p := by
      unfold addSearchPath
      split
      case isTrue => exact List.prefix_rfl
      case isFalse => exact List.prefix_append _ _
    exact hp.trans (ih _)

-- What is merged into search paths goes behind them.
theorem searchPaths_prefix_merge (o : Options) (overrides : Overrides) :
    o.searchPaths <+: (o.merge overrides).searchPaths :=
  prefix_foldl_addSearchPath o.searchPaths overrides.searchPaths

end Options

namespace Locator

variable {files : FileSystem} {roots : List Path} {extension reference : String}
  {requester p : Path}

theorem allCandidates_append (files : FileSystem) (roots more : List Path)
    (extension reference : String) (requester : Path) :
    ∃ rest, (Locator.mk files (roots ++ more) extension).allCandidates reference requester =
      (Locator.mk files roots extension).allCandidates reference requester ++ rest := by
  unfold allCandidates
  split
  case isTrue => exact ⟨[], rfl⟩
  case isFalse =>
    exact ⟨more.flatMap (candidates extension reference), by simp [List.flatMap_append]⟩

-- A file that is found under some roots is found before further roots are tried.
theorem locate_append (more : List Path)
    (h : (Locator.mk files roots extension).locate reference requester = .ok p) :
    (Locator.mk files (roots ++ more) extension).locate reference requester = .ok p := by
  obtain ⟨rest, hrest⟩ := allCandidates_append files roots more extension reference requester
  rw [locate] at h ⊢
  rw [hrest, List.find?_append]
  cases hc : ((Locator.mk files roots extension).allCandidates reference requester).find?
      files.isFile with
  | none => simp [hc] at h
  | some candidate => simpa [hc] using h

end Locator

namespace Builder

variable {b b' : Builder} {path : Path} {calls : List StaticCall} {references : List Reference}
  {s s' : Survey} {g g' : Graph} {m : Module}

-- A builder that finds what another one finds, and that is like it in all else.
structure Extends (b b' : Builder) : Prop where
  root : b'.root = b.root
  extension : b'.options.extension = b.options.extension
  external : b'.options.isExternal = b.options.isExternal
  read : b'.locator.files.read = b.locator.files.read
  locate : ∀ {literal : String} {p q : Path},
    b.locator.locate literal p = .ok q → b'.locator.locate literal p = .ok q

theorem Extends.visit_eq (h : b.Extends b') (s : Survey) (target : Path) :
    b'.visit s target = b.visit s target := by
  rw [visit, visit, h.root, h.extension]

theorem Extends.started_eq (h : b.Extends b') (start : Path) : b'.started start = b.started start :=
  congrArg Prod.snd (h.visit_eq _ start)

-- By induction on the calls: all of them are left to the host or found, so none is treated in
-- another way.
theorem Extends.follow (h : b.Extends b') (hf : b.follow path calls s = (.ok references, s')) :
    b'.follow path calls s = (.ok references, s') := by
  induction calls generalizing s references with
  | nil => exact hf
  | cons call calls ih =>
    have hexternal := congrFun h.external call.literal
    rcases follow_cons_eq_ok hf with ⟨he, hf⟩ | ⟨he, target, rest, hl, hrest, rfl⟩
    case inl =>
      rw [follow_external (hexternal.trans he)]
      exact ih hf
    case inr =>
      rw [← h.visit_eq] at hrest ⊢
      exact follow_located (hexternal.trans he) (h.locate hl) (ih hrest)

theorem Extends.turn (h : b.Extends b') (ht : b.Turn s m s') : b'.Turn s m s' := by
  cases ht with
  | mk hpending hread hscan hfollow => exact .mk hpending (h.read ▸ hread) hscan (h.follow hfollow)

theorem Extends.turns (h : b.Extends b') (ht : b.Turns g s g' s') : b'.Turns g s g' s' := by
  induction ht with
  | refl => exact .refl
  | step turn _ ih => exact .step (h.turn turn) ih

end Builder

-- Further search paths change nothing about a build that succeeds.
theorem buildGraph_merge_searchPaths {files : FiniteFiles} {options : Options} {entry : Path}
    {g : Graph} (paths : List Path) (h : (buildGraph files options entry).result = .ok g) :
    buildGraph files (options.merge ⟨paths, [], none⟩) entry = buildGraph files options entry ∧
      bundle files (options.merge ⟨paths, [], none⟩) entry = bundle files options entry := by
  obtain ⟨start, s, hstart, hturns, hpending⟩ := Builder.turns_of_buildGraph h
  obtain ⟨more, hmore⟩ := options.searchPaths_prefix_merge ⟨paths, [], none⟩
  have hextends : (Builder.of files options start).Extends
      (Builder.of files (options.merge ⟨paths, [], none⟩) start) := by
    refine ⟨rfl, rfl, rfl, rfl, fun hl => ?_⟩
    have hlonger := Locator.locate_append (more.map fun p => (start.parent.join p).clean) hl
    rwa [← List.map_append, hmore] at hlonger
  have hturns' := hextends.turns hturns
  rw [← hextends.visit_eq, ← hextends.started_eq] at hturns'
  have heq : buildGraph files (options.merge ⟨paths, [], none⟩) entry =
      buildGraph files options entry := by
    rw [hturns.buildGraph_eq hstart hpending, hturns'.buildGraph_eq hstart hpending]
  exact ⟨heq, by rw [bundle, bundle, heq]⟩

-- Files beside the requiring one, under the search path there was, and under both it and a new one.
def shaded : Memory :=
  Memory.empty
    |>.addFile ⟨"/p/main.lua"⟩ "require 'a' require 'b' require 'host' f(require)"
    |>.addFile ⟨"/p/a.lua"⟩ "require './main' require 'b'"
    |>.addFile ⟨"/lib/b.lua"⟩ "return 1"
    |>.addFile ⟨"/v/a.lua"⟩ "return 2"
    |>.addFile ⟨"/v/b.lua"⟩ "return 3"

theorem buildGraph_merge_searchPaths_shaded :
    ∃ g, (buildGraph shaded.fileSystem ⟨[⟨"../lib"⟩], ["host"], "lua"⟩ ⟨"/p/main.lua"⟩).result =
        .ok g ∧
      g.modules.map (fun m => (m.id, m.path)) =
        [(⟨"main"⟩, ⟨"/p/main.lua"⟩), (⟨"a"⟩, ⟨"/p/a.lua"⟩), (⟨"../lib/b"⟩, ⟨"/lib/b.lua"⟩)] ∧
      (Options.merge ⟨[⟨"../lib"⟩], ["host"], "lua"⟩ ⟨[⟨"/v"⟩, ⟨"../lib/"⟩], [], none⟩).searchPaths =
        [⟨"../lib"⟩, ⟨"/v"⟩] ∧
      buildGraph shaded.fileSystem
          (Options.merge ⟨[⟨"../lib"⟩], ["host"], "lua"⟩ ⟨[⟨"/v"⟩, ⟨"../lib/"⟩], [], none⟩)
          ⟨"/p/main.lua"⟩ =
        buildGraph shaded.fileSystem ⟨[⟨"../lib"⟩], ["host"], "lua"⟩ ⟨"/p/main.lua"⟩ ∧
      bundle shaded.fileSystem
          (Options.merge ⟨[⟨"../lib"⟩], ["host"], "lua"⟩ ⟨[⟨"/v"⟩, ⟨"../lib/"⟩], [], none⟩)
          ⟨"/p/main.lua"⟩ =
        bundle shaded.fileSystem ⟨[⟨"../lib"⟩], ["host"], "lua"⟩ ⟨"/p/main.lua"⟩ := by
  have hok : (buildGraph shaded.fileSystem ⟨[⟨"../lib"⟩], ["host"], "lua"⟩
      ⟨"/p/main.lua"⟩).result.map (fun g => g.modules.map fun m => (m.id, m.path)) =
        .ok [(⟨"main"⟩, ⟨"/p/main.lua"⟩), (⟨"a"⟩, ⟨"/p/a.lua"⟩),
          (⟨"../lib/b"⟩, ⟨"/lib/b.lua"⟩)] := by
    decide +kernel
  obtain ⟨g, hg, hfindings⟩ := exists_of_map_eq_ok hok
  exact ⟨g, hg, hfindings, by decide +kernel, buildGraph_merge_searchPaths _ hg⟩

end LuaBundle

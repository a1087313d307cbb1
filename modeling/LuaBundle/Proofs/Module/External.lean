import LuaBundle.File.Memory
import LuaBundle.Proofs.Module.Body
import LuaBundle.Proofs.Source.Replaced

namespace LuaBundle

open Lua

namespace Module

variable {m : Module} {r : Requires} {options : Options}

theorem map_fst_calls (h : m.references.map Reference.call =
    r.calls.filter fun c => !options.isExternal c.literal) :
    m.calls.map Prod.fst =
      (r.calls.filter fun c => !options.isExternal c.literal).map StaticCall.span := by
  rw [← h]
  simp [calls, Reference.call, Function.comp_def]

-- The body of a module has calls of bundled modules in place of the calls that are not external.
theorem replaced_body (h : Requires.of m.source = .ok r)
    (hr : m.references.map Reference.call =
      r.calls.filter fun c => !options.isExternal c.literal) :
    Requires.Replaced (!options.isExternal ·) none (lex m.source) (lex ("\n" ++ m.body)) := by
  have hspans := map_fst_calls hr
  have hkinds : (lex ("\n" ++ m.body)).map Token.kind = substitute m.calls (lex m.source) := by
    rw [lex_line_feed]
    exact (kinds_embed h (hspans ▸ List.filter_sublist.map _)).1
  refine Requires.replaced_of_substitute (.of m.source) (inOrder_lex m.source) ?_ hkinds
  rw [hspans, Requires.calls_eq_staticCalls h]

end Module

-- The calls left in the bodies of a graph's modules are the external ones, and no other use of
-- `require` gets lost.
theorem buildGraph_leaves_external {files : FiniteFiles} {options : Options} {entry : Path}
    {g : Graph} {m : Module} (h : (buildGraph files options entry).result = .ok g)
    (hm : m ∈ g.modules) :
    ∃ r r', Requires.of m.source = .ok r ∧ Requires.of ("\n" ++ m.body) = .ok r' ∧
      r'.calls.map StaticCall.literal =
        (r.calls.map StaticCall.literal).filter options.isExternal ∧
      r'.valueUses.length = r.valueUses.length ∧ (options.externals = [] → r'.calls = []) := by
  obtain ⟨r, hr, hcalls⟩ := Builder.scanned_of_buildGraph h m hm
  obtain ⟨r', hr', houtline⟩ := Requires.exists_of_replaced hr (m.replaced_body hr hcalls)
  obtain ⟨hliterals, hvalues⟩ := Prod.mk.inj houtline
  simp only [Bool.not_not] at hliterals
  refine ⟨r, r', hr, hr', hliterals, hvalues, fun hnone => ?_⟩
  rw [← List.map_eq_nil_iff, hliterals, List.filter_eq_nil_iff]
  simp [Options.isExternal, hnone]

-- Calls that touch one another, two that are bundled and one that is not, with values between them.
def hosted : Memory :=
  Memory.empty
    |>.addFile ⟨"/p/main.lua"⟩ "require'./a'require'socket'local f = require require('./'..'a')(require)"
    |>.addFile ⟨"/p/a.lua"⟩ "return require 'socket'"

theorem buildGraph_leaves_external_hosted :
    ∃ g, (buildGraph hosted.fileSystem ⟨[], ["socket"], "lua"⟩ ⟨"/p/main.lua"⟩).result = .ok g ∧
      (g.modules.map fun m => (Requires.of ("\n" ++ m.body)).toOption.map Requires.outline) =
        [some (["socket"], 2), some (["socket"], 0)] ∧
      ∀ m ∈ g.modules, ∃ r r', Requires.of m.source = .ok r ∧
        Requires.of ("\n" ++ m.body) = .ok r' ∧
        r'.calls.map StaticCall.literal =
          (r.calls.map StaticCall.literal).filter (Options.isExternal ⟨[], ["socket"], "lua"⟩) ∧
        r'.valueUses.length = r.valueUses.length ∧ (["socket"] = [] → r'.calls = []) := by
  have hok : (buildGraph hosted.fileSystem ⟨[], ["socket"], "lua"⟩ ⟨"/p/main.lua"⟩).result.map
      (fun g => g.modules.map fun m =>
        (Requires.of ("\n" ++ m.body)).toOption.map Requires.outline) =
      .ok [some (["socket"], 2), some (["socket"], 0)] := by
    decide +kernel
  obtain ⟨g, hg, houtlines⟩ := exists_of_map_eq_ok hok
  exact ⟨g, hg, houtlines, fun m hm => buildGraph_leaves_external hg hm⟩

end LuaBundle

import LuaBundle.Command.Run
import LuaBundle.Proofs.Except
import LuaBundle.Proofs.Module.Discovery
import LuaBundle.Proofs.Path.Rebase

namespace LuaBundle.Project

variable {t : Tree} {file : Path} {p q : Project} {targets : List Target} {outputs : List Path}

section Validate

theorem checkTargets_eq_ok (h : checkTargets outputs targets = .ok ()) :
    targets.Pairwise (fun a b => ¬ a.output ≈ b.output) ∧
      ∀ a ∈ targets, a.entry.isEmpty = false ∧ ∀ o ∈ outputs, ¬ o ≈ a.output := by
  induction targets generalizing outputs with
  | nil => simp
  | cons a targets ih =>
    rw [checkTargets] at h
    split at h
    case isTrue => cases h
    case isFalse hentry =>
      split at h
      case isTrue => cases h
      case isFalse hnew =>
        obtain ⟨hpairwise, hall⟩ := ih h
        have hnew : ∀ o ∈ outputs, ¬ o ≈ a.output := by simpa using hnew
        refine ⟨.cons (fun b hb => (hall b hb).2 a.output List.mem_cons_self) hpairwise,
          List.forall_mem_cons.mpr ⟨⟨by simpa using hentry, hnew⟩, fun b hb => ?_⟩⟩
        obtain ⟨hb, hnew⟩ := hall b hb
        exact ⟨hb, fun o ho => hnew o (.tail _ ho)⟩

-- No two outputs of a usable project are the same as they are written.
theorem pairwise_of_validate (h : p.validate = .ok ()) :
    p.targets.Pairwise fun a b => ¬ a.output ≈ b.output := by
  unfold validate at h
  split at h
  case isTrue => cases h
  case isFalse => exact (checkTargets_eq_ok h).1

theorem validate_of_parse {source : String} (h : parse source = .ok p) : p.validate = .ok () := by
  obtain ⟨d, -, h⟩ := exists_of_bind_eq_ok h
  obtain ⟨q, -, h⟩ := exists_of_bind_eq_ok h
  obtain ⟨⟨⟩, hvalid, h⟩ := exists_of_bind_eq_ok h
  exact Except.ok.inj h ▸ eq_ok_of_mapError hvalid

theorem exists_of_load (h : load t file = .ok p) : ∃ source q, t.readText file = .ok source ∧
    parse source = .ok q ∧ p = q.rebase file.parent := by
  obtain ⟨source, hsource, h⟩ := exists_of_bind_eq_ok h
  obtain ⟨q, hq, h⟩ := exists_of_bind_eq_ok h
  exact ⟨source, q, eq_ok_of_mapError hsource, hq, (Except.ok.inj h).symm⟩

end Validate

-- Two targets of a project that can be loaded have different outputs as they are written. Taken
-- from the directory of the project file, outputs on one level come to one place if and only if
-- they do so as they are written, so that clean ones never do.
theorem load_outputs (h : load t file = .ok p) :
    ∃ source q, t.readText file = .ok source ∧ parse source = .ok q ∧ p = q.rebase file.parent ∧
      (q.targets.Pairwise fun a b => ¬ a.output ≈ b.output) ∧
      (∀ a ∈ q.targets, ∀ b ∈ q.targets, a.output.Level b.output →
        ((a.rebase file.parent).output.clean = (b.rebase file.parent).output.clean ↔
          a.output.clean = b.output.clean)) ∧
      ((∀ a ∈ q.targets, a.output.clean = a.output) →
        (q.targets.Pairwise fun a b => a.output.Level b.output) →
          p.targets.Pairwise fun a b => a.output.clean ≠ b.output.clean) := by
  obtain ⟨source, q, hsource, hq, rfl⟩ := exists_of_load h
  have hpairwise := pairwise_of_validate (validate_of_parse hq)
  refine ⟨source, q, hsource, hq, rfl, hpairwise, fun a _ b _ hlevel => ?_, fun hclean hlevel => ?_⟩
  · exact hlevel.clean_join_eq_iff file.parent
  · refine List.pairwise_map.mpr ((hpairwise.and hlevel).imp_of_mem ?_)
    rintro a b ha hb ⟨hne, hlevel⟩ heq
    have hab := (hlevel.clean_join_eq_iff file.parent).mp heq
    rw [hclean a ha, hclean b hb] at hab
    exact hne (hab ▸ Setoid.refl a.output)

def twoTargets : String :=
  "targets:
- entry: a.lua
  output: ../dist/a.lua
- entry: b.lua
  output: ../dist/b.lua
"

-- A project in a directory beside that of its outputs.
def besideOutputs : Tree where
  entries := [
    (["project"], .directory), (["project", "luapack.yaml"], .file twoTargets.toUTF8)]
  here := []

theorem load_outputs_besideOutputs : ∃ p, load besideOutputs ⟨"project/luapack.yaml"⟩ = .ok p ∧
    p.targets.map (·.output) = [⟨"project/../dist/a.lua"⟩, ⟨"project/../dist/b.lua"⟩] ∧
    p.targets.Pairwise fun a b => a.output.clean ≠ b.output.clean := by
  have hload : (load besideOutputs ⟨"project/luapack.yaml"⟩).map (·.targets.map (·.output)) =
      .ok [⟨"project/../dist/a.lua"⟩, ⟨"project/../dist/b.lua"⟩] := by
    decide +kernel
  have hread : besideOutputs.readText ⟨"project/luapack.yaml"⟩ = .ok twoTargets := by
    decide +kernel
  have hparse : (parse twoTargets).map (·.targets.map (·.output)) =
      .ok [⟨"../dist/a.lua"⟩, ⟨"../dist/b.lua"⟩] := by
    decide +kernel
  obtain ⟨p, hp, houtputs⟩ := exists_of_map_eq_ok hload
  obtain ⟨source, q, hsource, hq, -, -, -, hclean⟩ := load_outputs hp
  obtain ⟨q', hq', hwritten⟩ := exists_of_map_eq_ok hparse
  have hsource : twoTargets = source := Except.ok.inj (hread.symm.trans hsource)
  have hproject : q' = q := Except.ok.inj (hq'.symm.trans (hsource ▸ hq))
  rw [hproject] at hwritten
  refine ⟨p, hp, houtputs, hclean ?_ ?_⟩
  · have : ∀ o ∈ q.targets.map (·.output), o.clean = o := by rw [hwritten]; decide
    simpa using this
  · have : (q.targets.map (·.output)).Pairwise Path.Level := by rw [hwritten]; decide
    exact List.pairwise_map.mp this

-- A project whose two targets write to one file, spelled in two ways.
def respelled : Tree where
  entries := [
    (["luapack.yaml"], .file
      "targets:
- entry: a.lua
  output: out.lua
- entry: b.lua
  output: ./out.lua
".toUTF8),
    (["a.lua"], .file "return 1".toUTF8),
    (["b.lua"], .file "return 2".toUTF8)]
  here := []

-- Two spellings of one file pass for two outputs, although a write to either goes to one place.
theorem outputs_not_apart_respelled :
    ¬ (∀ t file p, load t file = .ok p →
      p.targets.Pairwise fun a b => a.output.clean ≠ b.output.clean) ∧
    (load respelled ⟨"luapack.yaml"⟩).map (·.targets.map (·.output)) =
      .ok [⟨"out.lua"⟩, ⟨"./out.lua"⟩] ∧
    (Path.mk "out.lua").clean = (Path.mk "./out.lua").clean ∧
    respelled.locateFile ⟨"out.lua"⟩ = .ok ["out.lua"] ∧
    respelled.locateFile ⟨"./out.lua"⟩ = .ok ["out.lua"] := by
  have hload : (load respelled ⟨"luapack.yaml"⟩).map (·.targets.map (·.output)) =
      .ok [⟨"out.lua"⟩, ⟨"./out.lua"⟩] := by
    decide +kernel
  refine ⟨fun h => ?_, hload, by decide, by decide +kernel, by decide +kernel⟩
  obtain ⟨p, hp, houtputs⟩ := exists_of_map_eq_ok hload
  have hpairwise : (p.targets.map (·.output)).Pairwise fun a b => a.clean ≠ b.clean :=
    List.pairwise_map.mpr (h _ _ _ hp)
  rw [houtputs] at hpairwise
  exact absurd hpairwise (by decide)

end LuaBundle.Project

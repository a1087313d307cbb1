import LuaBundle.Proofs.Module.Needed
import LuaBundle.Proofs.Module.Simulation

namespace LuaBundle

section Behind

variable {α : Type}

-- Each element of a list with the elements in front of it, of which `earlier` come before the list.
def behind (earlier : List α) : List α → List (List α × α)
  | [] => []
  | x :: l => (earlier, x) :: behind (earlier ++ [x]) l

example : behind [] [1, 2, 3] = [([], 1), ([1], 2), ([1, 2], 3)] := rfl

theorem behind_append (earlier l l' : List α) :
    behind earlier (l ++ l') = behind earlier l ++ behind (earlier ++ l) l' := by
  induction l generalizing earlier with
  | nil => simp [behind]
  | cons x l ih => simp [behind, ih]

end Behind

-- The remark on an external call.
def externalRemark (path : Path) (call : StaticCall) : Diagnostic :=
  ⟨.info, path, call.span, Survey.externalMessage call.literal⟩

-- The remarks on those of some calls whose name is not told yet, and that no call in front of them
-- has, of which `before` come before the calls.
def externalRemarks (path : Path) (told : List String) (before calls : List StaticCall) :
    List Diagnostic :=
  ((behind before calls).filter fun (before, call) =>
      call.literal ∉ told ++ before.map (·.literal)).map
    fun (_, call) => externalRemark path call

theorem externalRemarks_cons (path : Path) (told : List String) (before calls : List StaticCall)
    (call : StaticCall) :
    externalRemarks path told before (call :: calls) =
      (if call.literal ∈ told ++ before.map (·.literal) then [] else [externalRemark path call]) ++
        externalRemarks path told (before ++ [call]) calls := by
  rw [externalRemarks, behind, List.filter_cons]
  by_cases h : call.literal ∈ told ++ before.map (·.literal)
  case pos =>
    rw [if_neg (by rwa [decide_eq_true_eq, not_not]), if_pos h]
    rfl
  case neg =>
    rw [if_pos (by rwa [decide_eq_true_eq]), if_neg h]
    rfl

namespace Module

-- What the source of a module says about `require`, where it can be scanned.
def requires (m : Module) : Requires :=
  (Requires.of m.source).toOption.getD ⟨[], []⟩

def externalCalls (options : Options) (m : Module) : List StaticCall :=
  m.requires.calls.filter (options.isExternal ·.literal)

-- The external names that a module mentions, in source order.
def externals (options : Options) (m : Module) : List String :=
  (m.externalCalls options).map (·.literal)

-- What a build tells of a module when it has told of some names: a warning for each value that
-- `require` is, and then a remark on each external call with a new name, both in source order.
def remarks (options : Options) (told : List String) (m : Module) : List Diagnostic :=
  m.requires.valueUses.map (⟨.warning, m.path, ·, Survey.valueUseMessage⟩) ++
    externalRemarks m.path told [] (m.externalCalls options)

end Module

-- What a build tells of modules, one after another.
def remarks (options : Options) (modules : List Module) : List Diagnostic :=
  (behind [] modules).flatMap fun (earlier, m) =>
    m.remarks options (earlier.flatMap (·.externals options))

theorem remarks_append (options : Options) (modules : List Module) (m : Module) :
    remarks options (modules ++ [m]) =
      remarks options modules ++ m.remarks options (modules.flatMap (·.externals options)) := by
  simp [remarks, behind_append, behind]

theorem externalMessage_injective : Function.Injective Survey.externalMessage := by
  intro x y h
  simpa [Survey.externalMessage, toString, String.append_left_inj] using h

namespace Builder

variable {b : Builder} {path : Path} {calls before : List StaticCall} {references : List Reference}
  {s s' : Survey} {g g' : Graph} {m : Module} {names : List String}

theorem diagnostics_visit (s : Survey) (target : Path) :
    (b.visit s target).2.reported = s.reported ∧
      (b.visit s target).2.diagnostics = s.diagnostics := by
  unfold Builder.visit Survey.visit
  split <;> exact ⟨rfl, rfl⟩

theorem diagnostics_meetExternal (s : Survey) (path : Path) (call : StaticCall) :
    (s.meetExternal path call).diagnostics =
      s.diagnostics ++ if call.literal ∈ s.reported then [] else [externalRemark path call] := by
  by_cases h : call.literal ∈ s.reported <;> simp [Survey.meetExternal, externalRemark, h]

theorem mem_reported_meetExternal (s : Survey) (path : Path) (call : StaticCall) (name : String) :
    name ∈ (s.meetExternal path call).reported ↔ name ∈ s.reported ∨ name = call.literal := by
  by_cases h : call.literal ∈ s.reported <;> simp [Survey.meetExternal, h]
  case pos => exact fun heq => heq ▸ h
  case neg => exact or_comm

-- Following calls tells of the external ones among them that are new behind `before` and the names
-- told, `names`.
theorem diagnostics_follow (hs : ∀ name, name ∈ s.reported ↔ name ∈ names ++ before.map (·.literal))
    (h : b.follow path calls s = (.ok references, s')) :
    s'.diagnostics = s.diagnostics ++
        externalRemarks path names before (calls.filter (b.options.isExternal ·.literal)) ∧
      ∀ name, name ∈ s'.reported ↔ name ∈ names ++
        (before ++ calls.filter (b.options.isExternal ·.literal)).map (·.literal) := by
  induction calls generalizing s before references with
  | nil =>
    obtain ⟨rfl, rfl⟩ := by simpa [follow] using h
    simpa [externalRemarks, behind] using hs
  | cons call calls ih =>
    rcases follow_cons_eq_ok h with ⟨he, h⟩ | ⟨he, target, rest, -, hf, rfl⟩
    case inl =>
      rw [List.filter_cons_of_pos (by simpa using he)]
      have hmeet : ∀ name, name ∈ (s.meetExternal path call).reported ↔
          name ∈ names ++ (before ++ [call]).map (·.literal) := fun name => by
        rw [mem_reported_meetExternal, hs]
        simp [or_assoc]
      obtain ⟨hdiagnostics, hreported⟩ := ih hmeet h
      refine ⟨?_, by simpa using hreported⟩
      rw [hdiagnostics, diagnostics_meetExternal, List.append_assoc, externalRemarks_cons]
      simp only [hs call.literal]
    case inr =>
      rw [List.filter_cons_of_neg (by simpa using he)]
      obtain ⟨hreported, hdiagnostics⟩ := diagnostics_visit (b := b) s target
      have hrest := ih (s := (b.visit s target).2) (hreported ▸ hs) hf
      rwa [hdiagnostics] at hrest

-- The invariant of what is told: the remarks on the modules, and the external names that they
-- mention.
structure Told (b : Builder) (g : Graph) (s : Survey) : Prop where
  diagnostics : s.diagnostics = remarks b.options g.modules
  reported : ∀ name, name ∈ s.reported ↔ name ∈ g.modules.flatMap (·.externals b.options)

theorem Told.turn (h : b.Told g s) (ht : b.Turn s m s') (hm : m.id ∉ g.modules.map Module.id) :
    b.Told (g.insert m) s' := by
  have hmodules := modules_insert hm
  cases ht with
  | @mk id path pending source requires references _ _ _ hscan hfollow =>
    have hrequires : (Module.mk id path source references).requires = requires := by
      simp [Module.requires, hscan, Except.toOption]
    have hs : ∀ name,
        name ∈ ({ s with pending := pending }.warnValueUses path requires.valueUses).reported ↔
          name ∈ g.modules.flatMap (·.externals b.options) ++
            ([] : List StaticCall).map (·.literal) := fun name => by
      rw [List.map_nil, List.append_nil]
      exact h.reported name
    obtain ⟨hdiagnostics, hreported⟩ := diagnostics_follow hs hfollow
    refine ⟨?_, fun name => ?_⟩
    case refine_1 =>
      rw [hmodules, remarks_append, ← h.diagnostics, hdiagnostics, Survey.warnValueUses,
        List.append_assoc, Module.remarks, Module.externalCalls, hrequires]
    case refine_2 =>
      rw [hreported, hmodules, List.flatMap_append, List.flatMap_singleton, Module.externals,
        Module.externalCalls, hrequires]
      rfl

theorem Turns.told (h : b.Turns g s g' s') (hg : b.Explored g s) (hs : b.Sound s')
    (ht : b.Told g s) : b.Told g' s' := by
  induction h with
  | refl => exact ht
  | step turn more ih =>
    have hs₁ := hs.of_suffix more.found_suffix
    exact ih (hg.turn turn hs₁) hs
      (ht.turn turn (turn.id_not_mem hg.sound.oneToOne.ids hg.ordered))

-- Each name reported has one remark.
structure ToldOnce (s : Survey) : Prop where
  messages : (s.diagnostics.filter (·.level = .info)).map (·.message) =
    s.reported.reverse.map Survey.externalMessage
  nodup : s.reported.Nodup

theorem ToldOnce.meetExternal (h : ToldOnce s) (path : Path) (call : StaticCall) :
    ToldOnce (s.meetExternal path call) := by
  by_cases hmem : call.literal ∈ s.reported
  case pos => simpa [Survey.meetExternal, hmem] using h
  case neg =>
    refine ⟨?_, ?_⟩
    case refine_1 => simp [Survey.meetExternal, hmem, h.messages]
    case refine_2 => simpa [Survey.meetExternal, hmem] using h.nodup

theorem ToldOnce.turn (h : ToldOnce s) (ht : b.Turn s m s') : ToldOnce s' := by
  cases ht with
  | @mk _ path pending _ requires _ _ _ _ _ hfollow =>
    have honce := follow_induction b path requires.calls
      ({ s with pending := pending }.warnValueUses path requires.valueUses)
      (motive := ToldOnce) ?_ ?_ ?_
    · rwa [hfollow] at honce
    · exact fun t call _ ht => ht.meetExternal path call
    · intro t call _ _ target _ ht
      obtain ⟨hreported, hdiagnostics⟩ := diagnostics_visit (b := b) t target
      exact ⟨by rw [hreported, hdiagnostics, ht.messages], hreported ▸ ht.nodup⟩
    · refine ⟨?_, h.nodup⟩
      simpa [Survey.warnValueUses, List.filter_map, Function.comp_def] using h.messages

theorem Turns.toldOnce (h : b.Turns g s g' s') (hs : ToldOnce s) : ToldOnce s' := by
  induction h with
  | refl => exact hs
  | step turn _ ih => exact ih (hs.turn turn)

theorem ToldOnce.countP_eq (h : ToldOnce s) {name : String} (hname : name ∈ s.reported) :
    s.diagnostics.countP (fun d => d.level = .info ∧ d.message = Survey.externalMessage name) =
      1 := by
  have hcount : (s.diagnostics.filter (·.level = .info)).countP
      (fun d => d.message == Survey.externalMessage name) = 1 := by
    rw [← Function.comp_def (· == Survey.externalMessage name), ← List.countP_map, h.messages]
    refine List.count_eq_one_of_mem ?_ ?_
    · exact (List.nodup_reverse.mpr h.nodup).map externalMessage_injective
    · exact List.mem_map_of_mem (List.mem_reverse.mpr hname)
  rw [List.countP_filter] at hcount
  rw [← hcount]
  exact List.countP_congr fun d _ => by simp [and_comm]

end Builder

-- A build tells of each module in turn: of every value that `require` is, and of every external
-- call whose name no external call in front of it has. So it tells of each external name once.
theorem buildGraph_diagnostics {m : Memory} {options : Options} {entry : Path} {g : Graph}
    (hm : m.Regular) (ha : m.ReadsApart options entry)
    (h : (buildGraph m.fileSystem options entry).result = .ok g) :
    (∀ x ∈ g.modules, Requires.of x.source = .ok x.requires) ∧
      (buildGraph m.fileSystem options entry).diagnostics = remarks options g.modules ∧
      ∀ x ∈ g.modules, ∀ name ∈ x.externals options,
        (buildGraph m.fileSystem options entry).diagnostics.countP
          (fun d => d.level = .info ∧ d.message = Survey.externalMessage name) = 1 := by
  obtain ⟨start, s, hstart, hb, hturns, he, hpending⟩ := hm.turns_of_buildGraph ha h
  have hdiagnostics : (buildGraph m.fileSystem options entry).diagnostics = s.diagnostics := by
    have hstart : m.fileSystem.canonicalize entry = .ok start := hstart
    rw [buildGraph, hstart]
    exact congrArg (fun x => x.2.diagnostics) (hturns.explore_eq hpending)
  have hempty := he.sound.of_suffix hturns.found_suffix
  have htold := hturns.told
    ⟨hempty, Builder.ordered_started _ start, by simp [Graph.empty]⟩ he.sound
    ⟨rfl, by simp [Graph.empty, Builder.started, Builder.diagnostics_visit]⟩
  have honce := hturns.toldOnce ⟨rfl, .nil⟩
  rw [hdiagnostics]
  refine ⟨fun x hx => ?_, htold.diagnostics, fun x hx name hname => ?_⟩
  case refine_1 =>
    obtain ⟨requires, hscan, -⟩ := (he.faithful x hx).scanned
    simp [Module.requires, hscan, Except.toOption]
  case refine_2 =>
    exact honce.countP_eq ((htold.reported name).mpr (List.mem_flatMap.mpr ⟨x, hx, hname⟩))

-- A name that is external twice in a file and again in another one, values and a cycle.
def talkative : Memory :=
  Memory.empty
    |>.addFile ⟨"/p/main.lua"⟩ "require 'a' local r = require require './b' require 'a'"
    |>.addFile ⟨"/p/b.lua"⟩ "require 'c' require 'a' require './main' f(require)"

theorem regular_talkative : talkative.Regular :=
  .of_files (.addFile (.addFile .empty _ _) _ _) (by decide +kernel)

theorem buildGraph_diagnostics_talkative :
    ∃ g, (buildGraph talkative.fileSystem ⟨[], ["a", "c"], "lua"⟩ ⟨"/p/main.lua"⟩).result = .ok g ∧
      (remarks ⟨[], ["a", "c"], "lua"⟩ g.modules).map (fun d => (d.level, d.path, d.span.start)) =
        [(.warning, ⟨"/p/main.lua"⟩, 22), (.info, ⟨"/p/main.lua"⟩, 0),
          (.warning, ⟨"/p/b.lua"⟩, 43), (.info, ⟨"/p/b.lua"⟩, 0)] ∧
      (∀ x ∈ g.modules, Requires.of x.source = .ok x.requires) ∧
      (buildGraph talkative.fileSystem ⟨[], ["a", "c"], "lua"⟩ ⟨"/p/main.lua"⟩).diagnostics =
        remarks ⟨[], ["a", "c"], "lua"⟩ g.modules ∧
      ∀ x ∈ g.modules, ∀ name ∈ x.externals ⟨[], ["a", "c"], "lua"⟩,
        (buildGraph talkative.fileSystem ⟨[], ["a", "c"], "lua"⟩
          ⟨"/p/main.lua"⟩).diagnostics.countP
            (fun d => d.level = .info ∧ d.message = Survey.externalMessage name) = 1 := by
  have hok : (buildGraph talkative.fileSystem ⟨[], ["a", "c"], "lua"⟩
      ⟨"/p/main.lua"⟩).result.map (fun g => (remarks ⟨[], ["a", "c"], "lua"⟩ g.modules).map
        (fun d => (d.level, d.path, d.span.start))) =
      .ok [(.warning, ⟨"/p/main.lua"⟩, 22), (.info, ⟨"/p/main.lua"⟩, 0),
        (.warning, ⟨"/p/b.lua"⟩, 43), (.info, ⟨"/p/b.lua"⟩, 0)] := by
    decide +kernel
  obtain ⟨g, hg, hremarks⟩ := exists_of_map_eq_ok hok
  exact ⟨g, hg, hremarks,
    buildGraph_diagnostics regular_talkative (.of_files (by decide +kernel)) hg⟩

-- A build tells of a value in a file whose module was replaced.
theorem buildGraph_more_diagnostics_veiled :
    veiled.Regular ∧
    ∃ g, (buildGraph veiled.fileSystem .default ⟨"/p/main.lua"⟩).result = .ok g ∧
      (buildGraph veiled.fileSystem .default ⟨"/p/main.lua"⟩).diagnostics ≠
        remarks .default g.modules := by
  have hok : (buildGraph veiled.fileSystem .default ⟨"/p/main.lua"⟩).result.map
      (fun g => remarks .default g.modules) = .ok [] := by
    decide +kernel
  have htold : (buildGraph veiled.fileSystem .default ⟨"/p/main.lua"⟩).diagnostics ≠ [] := by
    decide +kernel
  obtain ⟨g, hg, hremarks⟩ := exists_of_map_eq_ok hok
  exact ⟨regular_veiled, g, hg, hremarks ▸ htold⟩

end LuaBundle

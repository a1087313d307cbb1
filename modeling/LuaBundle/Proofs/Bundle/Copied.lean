import LuaBundle.Bundle.Emit
import LuaBundle.Proofs.Module.Closed
import LuaBundle.Proofs.Module.Simulation

namespace LuaBundle

theorem Module.calls_eq_zip (m : Module) :
    m.calls = ((m.references.map Reference.call).map StaticCall.span).zip
      (m.references.map (·.target.text)) := by
  rw [List.map_map, List.zip_map']
  rfl

theorem forall₂_and_mem {α β : Type} {R : α → β → Prop} {l : List α} {l' : List β}
    (h : List.Forall₂ R l l') : List.Forall₂ (fun a b => a ∈ l ∧ b ∈ l' ∧ R a b) l l' := by
  induction h with
  | nil => exact .nil
  | cons hr _ ih =>
    exact .cons ⟨List.mem_cons_self, List.mem_cons_self, hr⟩
      (ih.imp fun _ _ ⟨ha, hb, hr⟩ => ⟨.tail _ ha, .tail _ hb, hr⟩)

namespace Bundle

open Builder

variable {P : Path → Path → Prop} {g g' : Graph}

-- Modules with one text and the same targets have one body.
theorem body_eq_of_source_eq {files files' : FiniteFiles} {options : Options} {entry entry' : Path}
    {m m' : Module} (h : (buildGraph files options entry).result = .ok g)
    (h' : (buildGraph files' options entry').result = .ok g') (hm : m ∈ g.modules)
    (hm' : m' ∈ g'.modules) (hs : m.source = m'.source)
    (ht : m.references.map (·.target.text) = m'.references.map (·.target.text)) :
    m.body = m'.body := by
  obtain ⟨requires, hscan, hcalls⟩ := scanned_of_buildGraph h m hm
  obtain ⟨requires', hscan', hcalls'⟩ := scanned_of_buildGraph h' m' hm'
  obtain rfl : requires = requires' := Except.ok.inj (hscan.symm.trans (hs ▸ hscan'))
  rw [body_eq, body_eq, Module.calls_eq_zip, Module.calls_eq_zip, hs, hcalls, hcalls', ht]

theorem map_target_eq {m m' : Module} (h : Copies P Eq m m') :
    m.references.map (·.target.text) = m'.references.map (·.target.text) := by
  rw [← List.forall₂_eq_eq_eq, List.forall₂_map_left_iff, List.forall₂_map_right_iff]
  exact h.targets.imp fun _ _ he => congrArg ModuleId.text he

-- The entry is the first module of each of two copies.
theorem exists_root (h : Copied P Eq g g') (he : g.ids.head? = some g.entry) :
    ∃ p p', P p p' ∧ root g = p.parent ∧ root g' = p'.parent := by
  have hm := h.modules
  have hentry : g.entry = g'.entry := h.entry
  unfold root Graph.entryModule? Graph.module?
  unfold Graph.ids at he
  generalize g.modules = modules, g'.modules = modules' at hm he
  cases hm with
  | nil => cases he
  | @cons m m' _ _ hm _ =>
    have hid : m.id = g.entry := Option.some.inj he
    have hid' : m'.id = g'.entry := by rw [← hm.id, hid, hentry]
    refine ⟨m.path, m'.path, hm.path, ?_, ?_⟩
    · rw [List.find?_cons_of_pos (by simpa using hid)]
      rfl
    · rw [List.find?_cons_of_pos (by simpa using hid')]
      rfl

-- Graphs that are copies with the same ids, bodies and file names make one bundle.
theorem emit_eq_of_copied (h : Copied P Eq g g') (he : g.ids.head? = some g.entry)
    (hbody : ∀ m ∈ g.modules, ∀ m' ∈ g'.modules, Copies P Eq m m' → m.body = m'.body)
    (hname : ∀ {p p' q q' : Path}, P p p' → P q q' →
      q.relativeTo p.parent = q'.relativeTo p'.parent) : emit g = emit g' := by
  obtain ⟨p, p', hp, hroot, hroot'⟩ := exists_root h he
  have hunit : g.modules.map (unit (root g)) = g'.modules.map (unit (root g')) := by
    rw [← List.forall₂_eq_eq_eq, List.forall₂_map_left_iff, List.forall₂_map_right_iff]
    refine (forall₂_and_mem h.modules).imp fun m m' ⟨hm, hm', hc⟩ => ?_
    have hid : m.id = m'.id := hc.id
    have hfile : m.path.relativeTo (root g) = m'.path.relativeTo (root g') := by
      rw [hroot, hroot', hname hp hc.path]
    unfold unit
    rw [hid, hfile, hbody m hm m' hm' hc]
  have hentry : g.entry = g'.entry := h.entry
  unfold emit
  rw [hunit, hentry]

end Bundle
end LuaBundle

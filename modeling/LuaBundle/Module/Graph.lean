import LuaBundle.Module.Basic

namespace LuaBundle

-- The modules that an entry needs, in the order of their discovery, each under an id of its own.
structure Graph where
  entry : ModuleId
  modules : List Module
  nodup_ids : (modules.map (·.id)).Nodup

namespace Graph

def empty (entry : ModuleId) : Graph where
  entry := entry
  modules := []
  nodup_ids := List.nodup_nil

def ids (g : Graph) : List ModuleId :=
  g.modules.map (·.id)

def size (g : Graph) : Nat :=
  g.modules.length

def module? (g : Graph) (id : ModuleId) : Option Module :=
  g.modules.find? (·.id = id)

def contains (g : Graph) (id : ModuleId) : Bool :=
  (g.module? id).isSome

def entryModule? (g : Graph) : Option Module :=
  g.module? g.entry

-- A module with a new id goes to the end, one with a known id takes the place of the other.
def insertInto (m : Module) (modules : List Module) : List Module :=
  if modules.any (·.id = m.id) then modules.map fun n => if n.id = m.id then m else n
  else modules ++ [m]

theorem nodup_ids_insertInto {m : Module} {modules : List Module}
    (h : (modules.map (·.id)).Nodup) : ((insertInto m modules).map (·.id)).Nodup := by
  unfold insertInto
  split
  case isTrue =>
    have : (modules.map fun n => if n.id = m.id then m else n).map (·.id) = modules.map (·.id) := by
      rw [List.map_map]
      refine List.map_congr_left fun n _ => ?_
      simp only [Function.comp_apply]
      split <;> simp_all
    rwa [this]
  case isFalse hm =>
    rw [List.map_append, List.nodup_append]
    refine ⟨h, by simp, ?_⟩
    intro a ha b hb hab
    obtain rfl : b = m.id := by simpa using hb
    subst hab
    obtain ⟨n, hn, hid⟩ := List.mem_map.mp ha
    exact hm (List.any_eq_true.mpr ⟨n, hn, by simpa using hid⟩)

def insert (g : Graph) (m : Module) : Graph where
  entry := g.entry
  modules := insertInto m g.modules
  nodup_ids := nodup_ids_insertInto g.nodup_ids

def dependencies (g : Graph) (id : ModuleId) : List ModuleId :=
  ((g.module? id).map Module.dependencies).getD []

-- The modules that require `id`, in the order of discovery.
def dependents (g : Graph) (id : ModuleId) : List ModuleId :=
  g.modules.filter (·.references.any (·.target = id)) |>.map (·.id)

-- Every reference leads to a module of the graph.
def isClosed (g : Graph) : Bool :=
  g.modules.all (·.references.all (g.contains ·.target))

end Graph
end LuaBundle

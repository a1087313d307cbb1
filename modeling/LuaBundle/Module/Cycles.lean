import LuaBundle.Module.Graph

namespace LuaBundle

-- A directed graph whose nodes are the numbers below its size.
structure Digraph where
  size : Nat
  edges : List (Nat × Nat)
  bounded : ∀ e ∈ edges, e.1 < size ∧ e.2 < size

namespace Digraph

-- The nodes that edges lead to from a node.
def successors (d : Digraph) (i : Nat) : List Nat :=
  (d.edges.filter (·.1 = i)).map (·.2)

-- What can be reached from `start` by one or more steps, for as many rounds as are given.
def reach {α : Type} [DecidableEq α] (next : α → List α) (rounds : Nat) (start : α) : List α :=
  go rounds [] (next start).eraseDups
where
  go : Nat → List α → List α → List α
    | 0, seen, _ => seen
    | rounds + 1, seen, fresh =>
      let seen := seen ++ fresh
      let more := ((fresh.flatMap next).filter (· ∉ seen)).eraseDups
      if more.isEmpty then seen else go rounds seen more

-- The strongly connected components: nodes that lead to each other are in one of them, and each
-- node is in the one that stands at its least member.
def components (d : Digraph) : List (List Nat) :=
  let nodes := List.range d.size
  let table := nodes.map fun i => reach d.successors d.size i
  let reaches (i j : Nat) : Bool := table[i]?.any (·.contains j)
  let component (i : Nat) := nodes.filter fun j => i = j || reaches i j && reaches j i
  nodes.filterMap fun i => if (component i).head? = some i then some (component i) else none

-- Whether a component has an edge inside: it has more than one node, or one that leads to itself.
def isCyclic (d : Digraph) (component : List Nat) : Bool :=
  1 < component.length || component.head?.any fun i => d.edges.contains (i, i)

-- The members of each component in order, and the components in the order of their first members.
def inOrder (components : List (List Nat)) : List (List Nat) :=
  (components.map fun c => c.mergeSort).mergeSort fun c c' => c.headD 0 ≤ c'.headD 0

end Digraph

namespace Graph

-- The modules by their positions, with an edge for each reference that leads to a module.
def digraph (g : Graph) : Digraph where
  size := g.size
  edges := (g.modules.zipIdx.flatMap fun (m, i) =>
    m.references.filterMap fun r => (g.ids.idxOf? r.target).map fun j => (i, j)).eraseDups
  bounded := by
    intro e he
    obtain ⟨⟨m, i⟩, hm, he⟩ := List.mem_flatMap.mp (List.mem_eraseDups.mp he)
    obtain ⟨r, -, hr⟩ := List.mem_filterMap.mp he
    obtain ⟨j, hj, rfl⟩ := Option.map_eq_some_iff.mp hr
    obtain ⟨hj, -⟩ := List.idxOf?_eq_some_iff.mp hj
    obtain ⟨hi, -⟩ := List.getElem?_eq_some_iff.mp (List.mem_zipIdx_iff_getElem?.mp hm)
    exact ⟨hi, by simpa [ids, size] using hj⟩

-- The modules at some positions.
def idsAt (g : Graph) (positions : List Nat) : List ModuleId :=
  positions.filterMap fun i => g.ids[i]?

-- The groups that the cyclic ones among some components stand for. Members and groups are in the
-- order of discovery, whatever the order of the components.
def groupsOf (g : Graph) (components : List (List Nat)) : List (List ModuleId) :=
  (Digraph.inOrder (components.filter g.digraph.isCyclic)).map g.idsAt

-- The groups of modules that require each other, directly or through other modules.
def circularGroups (g : Graph) : List (List ModuleId) :=
  g.groupsOf g.digraph.components

def cycleMessage (group : List ModuleId) : String :=
  "Circular dependency: " ++ String.intercalate " -> " (group.map (·.text))

end Graph
end LuaBundle

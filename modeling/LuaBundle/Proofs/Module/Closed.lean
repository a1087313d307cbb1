import LuaBundle.Proofs.Module.Body
import LuaBundle.Proofs.Module.Breakage
import LuaBundle.Proofs.Module.Sharing

namespace LuaBundle

namespace Graph

variable {g : Graph} {m : Module} {id : ModuleId}

-- A module that takes the place of another keeps its place among the ids.
theorem map_id_insertInto (m : Module) (modules : List Module) :
    (insertInto m modules).map Module.id =
      if m.id ∈ modules.map Module.id then modules.map Module.id
      else modules.map Module.id ++ [m.id] := by
  have hany : modules.any (·.id = m.id) ↔ m.id ∈ modules.map Module.id := by simp
  unfold insertInto
  by_cases hm : m.id ∈ modules.map Module.id
  case pos =>
    rw [if_pos (hany.mpr hm), if_pos hm, List.map_map]
    refine List.map_congr_left fun n _ => ?_
    simp only [Function.comp_apply]
    split
    case isTrue hn => exact hn.symm
    case isFalse => rfl
  case neg => rw [if_neg (mt hany.mp hm), if_neg hm, List.map_append, List.map_singleton]

theorem ids_insert (g : Graph) (m : Module) :
    (g.insert m).ids = if m.id ∈ g.ids then g.ids else g.ids ++ [m.id] :=
  map_id_insertInto m g.modules

theorem ids_prefix_insert (g : Graph) (m : Module) : g.ids <+: (g.insert m).ids := by
  rw [ids_insert]
  split
  case isTrue => exact List.prefix_rfl
  case isFalse => exact List.prefix_append _ _

theorem mem_ids_insert (g : Graph) (m : Module) : m.id ∈ (g.insert m).ids := by
  rw [ids_insert]
  split
  case isTrue h => exact h
  case isFalse => exact List.mem_append_right _ List.mem_cons_self

end Graph

namespace Builder

variable {b : Builder} {path start : Path} {calls : List StaticCall} {s s' : Survey} {g g' : Graph}
  {m n : Module} {done : List (ModuleId × Path)} {id : ModuleId} {r r' : Reference}

theorem allotted_visit (h : s.found.Allotted b.root b.options.extension) (target : Path) :
    (b.visit s target).2.found.Allotted b.root b.options.extension := by
  unfold visit Survey.visit
  split
  case h_1 => exact h
  case h_2 hnew => exact .cons h hnew

theorem Turn.allotted (h : b.Turn s m s') (hs : s.found.Allotted b.root b.options.extension) :
    s'.found.Allotted b.root b.options.extension := by
  cases h with
  | @mk _ path pending _ requires _ _ _ _ _ hfollow =>
    have hs' := follow_induction b path requires.calls
      ({ s with pending := pending }.warnValueUses path requires.valueUses)
      (motive := fun t => t.found.Allotted b.root b.options.extension) ?_ ?_ hs
    · rwa [hfollow] at hs'
    · intro t call _ ht
      rwa [(found_meetExternal t path call).1]
    · exact fun t _ _ _ target _ ht => allotted_visit ht target

theorem Turns.allotted (h : b.Turns g s g' s') (hs : s.found.Allotted b.root b.options.extension) :
    s'.found.Allotted b.root b.options.extension := by
  induction h with
  | refl => exact hs
  | step turn _ ih => exact ih (turn.allotted hs)

theorem allotted_started (b : Builder) (start : Path) :
    (b.started start).found.Allotted b.root b.options.extension :=
  allotted_visit (s := ⟨[], [], [], []⟩) .nil start

-- What modules a graph gets are findings that came about file by file.
theorem allotted_of_buildGraph {files : FiniteFiles} {options : Options} {entry : Path}
    (h : (buildGraph files options entry).result = .ok g) :
    ∃ start, files.canonicalize entry = .ok start ∧ ∃ found : Findings,
      found.Allotted start.parent options.extension ∧
      (∀ f ∈ found, (Builder.of files options start).Needed start f.2) ∧
      ∀ m ∈ g.modules, m.finding ∈ found := by
  obtain ⟨start, s, hstart, hturns, -⟩ := turns_of_buildGraph h
  exact ⟨start, hstart, s.found, hturns.allotted (allotted_started _ start),
    hturns.needed_of_started,
    hturns.finding_mem_found (ordered_started _ start) (by simp [Graph.empty])⟩

-- The invariant of an exploration in which ids may coincide: every file that is done has left its
-- id in the graph, be it with the module of another file.
structure Charted (done : List (ModuleId × Path)) (g : Graph) (s : Survey) : Prop where
  ordered : Ordered done s
  kept : ∀ f ∈ done, f.1 ∈ g.ids

theorem Charted.turn (h : Charted done g s) (ht : b.Turn s m s') :
    Charted (done ++ [m.finding]) (g.insert m) s' where
  ordered := ht.ordered h.ordered
  kept f hf := by
    rcases List.mem_append.mp hf with hf | hf
    case inl => exact (g.ids_prefix_insert m).subset (h.kept f hf)
    case inr => exact List.mem_singleton.mp hf ▸ g.mem_ids_insert m

theorem Turns.charted (h : b.Turns g s g' s') (hg : Charted done g s) :
    ∃ done', Charted done' g' s' := by
  induction h generalizing done with
  | refl => exact ⟨done, hg⟩
  | step turn _ ih => exact ih (hg.turn turn)

theorem Charted.mem_ids (h : Charted done g s) (hp : s.pending = []) {f : ModuleId × Path}
    (hf : f ∈ s.found) : f.1 ∈ g.ids := by
  have hordered := h.ordered
  rw [Ordered, hp, List.append_nil] at hordered
  exact h.kept f (hordered ▸ List.mem_reverse.mpr hf)

theorem Turns.ids_prefix (h : b.Turns g s g' s') : g.ids <+: g'.ids ∧ g'.entry = g.entry := by
  induction h with
  | refl => exact ⟨List.prefix_rfl, rfl⟩
  | step _ _ ih => exact ⟨(Graph.ids_prefix_insert _ _).trans ih.1, ih.2⟩

-- The first turn is that of the start, and its id stays in front.
theorem Turns.head?_ids (h : b.Turns (.empty (b.visit ⟨[], [], [], []⟩ start).1)
    (b.started start) g s) (hp : s.pending = []) : g.ids.head? = some g.entry := by
  cases h with
  | refl => cases hp
  | @step _ _ _ _ _ m turn more =>
    obtain ⟨⟨rest, hids⟩, hentry⟩ := more.ids_prefix
    have hm : m.finding = ((b.visit ⟨[], [], [], []⟩ start).1, start) :=
      Option.some.inj turn.head?_pending.symm
    have hid : m.id = (b.visit ⟨[], [], [], []⟩ start).1 := congrArg Prod.fst hm
    rw [← hids, hentry]
    exact congrArg some hid

end Builder

-- The ids that a bundle requires: those that the calls in its modules are turned into, and that of
-- the entry.
def Bundle.required (g : Graph) : List String :=
  g.entry.text :: g.modules.flatMap fun m => m.calls.map Prod.snd

theorem Bundle.body_eq (m : Module) : m.body = embed m.source m.calls :=
  rfl

section

variable {files : FiniteFiles} {options : Options} {entry : Path} {g : Graph}

theorem Graph.count_eq_one {id : ModuleId} (h : id ∈ g.ids) :
    (g.modules.map (·.id.text)).count id.text = 1 := by
  have hinj : Function.Injective ModuleId.text := fun _ _ => congrArg ModuleId.mk
  have hids : g.modules.map (·.id.text) = g.ids.map ModuleId.text := by
    rw [ids, List.map_map]
    rfl
  rw [hids]
  exact List.count_eq_one_of_mem (g.nodup_ids.map hinj) (List.mem_map_of_mem h)

-- A graph that is built begins with its entry, and its references lead to its modules.
theorem Builder.closed_of_buildGraph (h : (buildGraph files options entry).result = .ok g) :
    g.ids.head? = some g.entry ∧ ∀ m ∈ g.modules, ∀ r ∈ m.references, r.target ∈ g.ids := by
  obtain ⟨start, s, -, hturns, hpending⟩ := turns_of_buildGraph h
  have hfaithful := hturns.faithful (by simp [Graph.empty])
  obtain ⟨done, hcharted⟩ := hturns.charted ⟨ordered_started _ start, by simp⟩
  refine ⟨hturns.head?_ids hpending, fun m hm r hr => ?_⟩
  obtain ⟨_, hq, _⟩ := (hfaithful m hm).found r hr
  exact hcharted.mem_ids hpending hq

theorem Bundle.count_eq_one_of_mem_required (h : (buildGraph files options entry).result = .ok g)
    {id : String} (hid : id ∈ Bundle.required g) : (g.modules.map (·.id.text)).count id = 1 := by
  obtain ⟨hhead, htarget⟩ := Builder.closed_of_buildGraph h
  rcases List.mem_cons.mp hid with rfl | hid
  case inl => exact Graph.count_eq_one (List.mem_of_mem_head? hhead)
  case inr =>
    obtain ⟨m, hm, hid⟩ := List.mem_flatMap.mp hid
    obtain ⟨r, hr, rfl⟩ : ∃ r ∈ m.references, r.target.text = id := by
      simpa [Module.calls] using hid
    exact Graph.count_eq_one (htarget m hm r hr)

end

end LuaBundle

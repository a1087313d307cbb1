import Mathlib.Order.Nat
import LuaBundle.Proofs.Module.Needed

namespace LuaBundle

theorem mem_of_mem_front {α : Type} {p front back : List α} {x y : α}
    (hn : (front ++ y :: back).Nodup) (hp : p <+: front ++ y :: back) (hy : y ∈ p)
    (hx : x ∈ front) : x ∈ p := by
  rcases List.prefix_or_prefix_of_prefix (List.prefix_append front (y :: back)) hp with h | h
  case inl => exact h.subset hx
  case inr => exact absurd rfl ((List.nodup_append.mp hn).2.2 y (h.subset hy) y List.mem_cons_self)

-- The ids that the references of a module lead to, in source order.
def Module.targets (m : Module) : List ModuleId :=
  m.references.map (·.target)

namespace Graph

variable {g : Graph} {m : Module} {n : Nat} {id : ModuleId}

-- The entry, and then module by module what each one requires.
def mentions (g : Graph) : List ModuleId :=
  g.entry :: g.modules.flatMap Module.targets

-- The ids that `n` requires lead to from the entry.
inductive Steps (g : Graph) : Nat → ModuleId → Prop
  | entry : Steps g 0 g.entry
  | require {n : Nat} {m : Module} {id : ModuleId} (h : Steps g n m.id) (hm : m ∈ g.modules)
      (hid : id ∈ m.targets) : Steps g (n + 1) id

-- The smallest number of requires from the entry to a module.
def Distance (g : Graph) (id : ModuleId) (n : Nat) : Prop :=
  IsLeast {k | g.Steps k id} n

theorem exists_distance (h : g.Steps n id) : ∃ k, g.Distance id k := by
  classical
  exact ⟨_, Nat.isLeast_find ⟨n, h⟩⟩

theorem Steps.insert (h : g.Steps n id) (hm : m.id ∉ g.modules.map Module.id) :
    (g.insert m).Steps n id := by
  induction h with
  | entry => exact .entry
  | require _ hn hid ih =>
    refine .require ih ?_ hid
    rw [Builder.modules_insert hm]
    exact List.mem_append_left _ hn

variable {front back : List ModuleId} {x y : ModuleId}

-- By induction on the way: what stands in front of a required id is mentioned no later than it, so
-- by a module in front of the requiring one or by that module.
theorem Steps.exists_le (hg : g.ids = g.mentions.eraseDups) (h : g.Steps n y)
    (hids : g.ids = front ++ y :: back) (hx : x ∈ front) : ∃ k ≤ n, g.Steps k x := by
  have hnodup : (front ++ y :: back).Nodup := hids ▸ g.nodup_ids
  induction h generalizing front back x with
  | entry =>
    rw [hg, mentions, List.eraseDups_cons] at hids
    cases front with
    | nil => cases hx
    | cons d front =>
      obtain rfl := (List.cons.inj hids).1
      simp at hnodup
  | @require n m y hm hmem hy ih =>
    obtain ⟨earlier, later, hmodules⟩ := List.append_of_mem hmem
    have hmentions : g.mentions =
        (g.entry :: (earlier ++ [m]).flatMap Module.targets) ++ later.flatMap Module.targets := by
      simp [mentions, hmodules]
    have hprefix : (g.entry :: (earlier ++ [m]).flatMap Module.targets).eraseDups <+: g.ids := by
      rw [hg, hmentions, List.eraseDups_append]
      exact List.prefix_append _ _
    have hfirst := mem_of_mem_front hnodup (hids ▸ hprefix)
      (List.mem_eraseDups.mpr (by simp [hy])) hx
    rcases List.mem_cons.mp (List.mem_eraseDups.mp hfirst) with rfl | hfirst
    case inl => exact ⟨0, Nat.zero_le _, .entry⟩
    case inr =>
      obtain ⟨m', hm', hx⟩ := List.mem_flatMap.mp hfirst
      have hsplit : g.ids = earlier.map Module.id ++ m.id :: later.map Module.id := by
        simp [ids, hmodules]
      rcases List.mem_append.mp hm' with hm' | hm'
      case inl =>
        obtain ⟨k, hk, hsteps⟩ := ih hsplit (List.mem_map_of_mem hm') (hsplit ▸ g.nodup_ids)
        exact ⟨k + 1, Nat.succ_le_succ hk,
          .require hsteps (hmodules ▸ List.mem_append_left _ hm') hx⟩
      case inr =>
        obtain rfl := List.mem_singleton.mp hm'
        exact ⟨n + 1, le_rfl, .require hm hmem hx⟩

-- Where modules stand in the order in which they are mentioned first, none is nearer to the entry
-- than one in front of it.
theorem pairwise_distance_le (hg : g.ids = g.mentions.eraseDups) :
    g.modules.Pairwise fun x y => ∀ k n, g.Distance x.id k → g.Distance y.id n → k ≤ n := by
  rw [← List.pairwise_map (f := Module.id)
    (R := fun x y => ∀ k n, g.Distance x k → g.Distance y n → k ≤ n),
    List.pairwise_iff_forall_sublist]
  intro x y hsub k n hk hn
  obtain ⟨front, back, hids, hx, hy⟩ := List.cons_sublist_iff.mp hsub
  obtain ⟨between, back, rfl⟩ := List.append_of_mem (List.singleton_sublist.mp hy)
  have hids : g.ids = (front ++ between) ++ y :: back := by rw [ids, hids, List.append_assoc]
  obtain ⟨l, hl, hsteps⟩ := hn.1.exists_le hg hids (List.mem_append_left between hx)
  exact (hk.2 hsteps).trans hl

end Graph

-- The ids found, first found first.
def Survey.ids (s : Survey) : List ModuleId :=
  s.found.reverse.map Prod.fst

namespace Builder

variable {b : Builder} {path : Path} {calls : List StaticCall} {references : List Reference}
  {s s' : Survey} {g g' : Graph} {m : Module} {ids : List ModuleId}

theorem mem_ids_of_id?_eq_some {id : ModuleId} (h : s.found.id? path = some id) : id ∈ s.ids := by
  obtain ⟨q, hq, -⟩ := Findings.mem_of_id?_eq_some h
  simpa [Survey.ids] using ⟨q, hq⟩

-- A visit mentions one more id.
theorem ids_visit (hs : s.ids = ids.eraseDups)
    (hn : ((b.visit s path).2.found.map Prod.fst).Nodup) :
    (b.visit s path).2.ids = (ids ++ [(b.visit s path).1]).eraseDups := by
  revert hn
  unfold Builder.visit Survey.visit
  split
  case h_1 id h =>
    intro _
    have hid : id ∈ ids := List.mem_eraseDups.mp (hs ▸ mem_ids_of_id?_eq_some h)
    rw [List.eraseDups_append]
    simp [hs, List.removeAll, hid]
  case h_2 =>
    intro hn
    have hid : s.found.newId b.root b.options.extension path ∉ ids := by
      rw [← List.mem_eraseDups, ← hs]
      simpa [Survey.ids] using (List.nodup_cons.mp hn).1
    rw [List.eraseDups_append]
    simp only [Survey.ids] at hs
    simp [Survey.ids, hs, List.removeAll, hid, List.eraseDups_cons]

theorem ids_follow (hs : s.ids = ids.eraseDups)
    (h : b.follow path calls s = (.ok references, s')) (hn : (s'.found.map Prod.fst).Nodup) :
    s'.ids = (ids ++ references.map (·.target)).eraseDups := by
  induction calls generalizing s references ids with
  | nil =>
    obtain ⟨rfl, rfl⟩ := by simpa [follow] using h
    simpa using hs
  | cons call calls ih =>
    rcases follow_cons_eq_ok h with ⟨-, h⟩ | ⟨-, target, rest, -, hf, rfl⟩
    case inl =>
      refine ih ?_ h
      rw [Survey.ids, (found_meetExternal s path call).1]
      exact hs
    case inr =>
      have hsuffix := b.found_suffix_follow path calls (b.visit s target).2
      rw [hf] at hsuffix
      have hvisit : (b.visit s target).2.ids = (ids ++ [(b.visit s target).1]).eraseDups :=
        ids_visit hs (hn.sublist (hsuffix.sublist.map Prod.fst))
      have hrest := ih hvisit hf
      rwa [List.append_assoc] at hrest

-- The invariant of a breadth first exploration: files are found in the order in which the entry and
-- the modules mention them, and the modules are files that the entry leads to.
structure BreadthFirst (g : Graph) (s : Survey) : Prop where
  ids : s.ids = g.mentions.eraseDups
  reached : ∀ m ∈ g.modules, ∃ n, g.Steps n m.id

theorem breadthFirst_started (b : Builder) (start : Path) :
    BreadthFirst (.empty (b.visit ⟨[], [], [], []⟩ start).1) (b.started start) where
  ids := by simp [Survey.ids, found_started, Graph.mentions, Graph.empty, List.eraseDups_cons]
  reached := by simp [Graph.empty]

theorem Turn.ids_eq (h : b.Turn s m s') (hs : s.ids = ids.eraseDups)
    (hn : (s'.found.map Prod.fst).Nodup) : s'.ids = (ids ++ m.targets).eraseDups := by
  cases h with
  | @mk _ path pending _ requires _ _ _ _ _ hfollow =>
    exact ids_follow (s := { s with pending := pending }.warnValueUses path requires.valueUses)
      hs hfollow hn

-- A file that is found is the entry or what a module requires.
theorem BreadthFirst.exists_steps (h : BreadthFirst g s) {id : ModuleId} (hid : id ∈ s.ids) :
    ∃ n, g.Steps n id := by
  rw [h.ids, List.mem_eraseDups] at hid
  rcases List.mem_cons.mp hid with rfl | hid
  case inl => exact ⟨0, .entry⟩
  case inr =>
    obtain ⟨m, hm, hid⟩ := List.mem_flatMap.mp hid
    obtain ⟨n, hn⟩ := h.reached m hm
    exact ⟨n + 1, .require hn hm hid⟩

theorem BreadthFirst.turn (h : BreadthFirst g s) (ht : b.Turn s m s') (he : b.Explored g s)
    (hs : b.Sound s') : BreadthFirst (g.insert m) s' := by
  have hm := ht.id_not_mem he.sound.oneToOne.ids he.ordered
  have hmodules := modules_insert hm
  refine ⟨?_, fun x hx => ?_⟩
  case refine_1 =>
    have hmentions : (g.insert m).mentions = g.mentions ++ m.targets := by
      have hentry : (g.insert m).entry = g.entry := rfl
      simp [Graph.mentions, hmodules, hentry]
    rw [hmentions]
    exact ht.ids_eq h.ids hs.oneToOne.ids
  case refine_2 =>
    rw [hmodules] at hx
    have hsteps : ∃ n, g.Steps n x.id := by
      rcases List.mem_append.mp hx with hx | hx
      case inl => exact h.reached x hx
      case inr =>
        obtain rfl := List.mem_singleton.mp hx
        refine h.exists_steps ?_
        simpa [Survey.ids] using ⟨_, ht.mem_found he.ordered⟩
    exact hsteps.imp fun _ hn => hn.insert hm

theorem Turns.breadthFirst (h : b.Turns g s g' s') (hg : b.Explored g s) (hs : b.Sound s')
    (hb : BreadthFirst g s) : BreadthFirst g' s' := by
  induction h with
  | refl => exact hb
  | step turn more ih =>
    have hs₁ := hs.of_suffix more.found_suffix
    exact ih (hg.turn turn hs₁) hs (hb.turn turn hg hs₁)

end Builder

-- Modules stand in the order in which the entry and then the modules one after another mention them
-- first, so that none stands in front of one that is nearer to the entry.
theorem buildGraph_breadth_first {m : Memory} {options : Options} {entry : Path} {g : Graph}
    (hm : m.Regular) (ha : m.ReadsApart options entry)
    (h : (buildGraph m.fileSystem options entry).result = .ok g) :
    g.ids = (g.entry :: g.modules.flatMap fun x => x.references.map (·.target)).eraseDups ∧
      (∀ x ∈ g.modules, ∃ n, g.Distance x.id n) ∧
      g.modules.Pairwise fun x y => ∀ k n, g.Distance x.id k → g.Distance y.id n → k ≤ n := by
  obtain ⟨start, s, -, -, hturns, he, hpending⟩ := hm.turns_of_buildGraph ha h
  have hempty := he.sound.of_suffix hturns.found_suffix
  have hbreadth := hturns.breadthFirst
    ⟨hempty, Builder.ordered_started _ start, by simp [Graph.empty]⟩ he.sound
    (Builder.breadthFirst_started _ start)
  have hids : g.ids = g.mentions.eraseDups := by
    have hordered : s.found.reverse = g.modules.map Module.finding := by
      rw [he.ordered, hpending, List.append_nil]
    rw [← hbreadth.ids, Survey.ids, hordered, List.map_map]
    rfl
  refine ⟨hids, fun x hx => ?_, Graph.pairwise_distance_le hids⟩
  obtain ⟨n, hn⟩ := hbreadth.reached x hx
  exact Graph.exists_distance hn

-- A file that two others require, with a way to it through the first of them that is found, and a
-- cycle.
def layered : Memory :=
  Memory.empty
    |>.addFile ⟨"/p/main.lua"⟩ "require './b' require './a'"
    |>.addFile ⟨"/p/a.lua"⟩ "require './c'"
    |>.addFile ⟨"/p/b.lua"⟩ "require './c' require './b'"
    |>.addFile ⟨"/p/c.lua"⟩ "require './main'"

theorem regular_layered : layered.Regular :=
  .of_files (.addFile (.addFile (.addFile (.addFile .empty _ _) _ _) _ _) _ _) (by decide +kernel)

theorem buildGraph_breadth_first_layered :
    ∃ g, (buildGraph layered.fileSystem .default ⟨"/p/main.lua"⟩).result = .ok g ∧
      g.ids = [⟨"main"⟩, ⟨"b"⟩, ⟨"a"⟩, ⟨"c"⟩] ∧
      g.ids = (g.entry :: g.modules.flatMap fun x => x.references.map (·.target)).eraseDups ∧
      (∀ x ∈ g.modules, ∃ n, g.Distance x.id n) ∧
      g.modules.Pairwise fun x y => ∀ k n, g.Distance x.id k → g.Distance y.id n → k ≤ n := by
  have hok : (buildGraph layered.fileSystem .default ⟨"/p/main.lua"⟩).result.map Graph.ids =
      .ok [⟨"main"⟩, ⟨"b"⟩, ⟨"a"⟩, ⟨"c"⟩] := by
    decide +kernel
  obtain ⟨g, hg, hids⟩ := exists_of_map_eq_ok hok
  exact ⟨g, hg, hids, buildGraph_breadth_first regular_layered (.of_files (by decide +kernel)) hg⟩

-- A file is a module although no module there is refers to it: the one that did was replaced.
theorem buildGraph_not_mentioned_veiled :
    veiled.Regular ∧
    ∃ g, (buildGraph veiled.fileSystem .default ⟨"/p/main.lua"⟩).result = .ok g ∧
      ⟨"e"⟩ ∈ g.ids ∧
      ⟨"e"⟩ ∉ (g.entry :: g.modules.flatMap fun x => x.references.map (·.target)).eraseDups := by
  have hok : (buildGraph veiled.fileSystem .default ⟨"/p/main.lua"⟩).result.map
      (fun g => decide (⟨"e"⟩ ∈ g.ids ∧
        ⟨"e"⟩ ∉ (g.entry :: g.modules.flatMap fun x => x.references.map (·.target)).eraseDups)) =
      .ok true := by
    decide +kernel
  obtain ⟨g, hg, he⟩ := exists_of_map_eq_ok hok
  exact ⟨regular_veiled, g, hg, of_decide_eq_true he⟩

end LuaBundle

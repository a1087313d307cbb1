import Mathlib.Data.List.Perm.Subperm
import Mathlib.Data.List.Sort
import Mathlib.Data.Option.Basic
import Mathlib.Logic.Relation
import LuaBundle.Module.Cycles
import LuaBundle.Proofs.Module.Closed

namespace LuaBundle

open Relation (TransGen)

namespace Digraph

theorem nodup_eraseDups {α : Type} [DecidableEq α] : (l : List α) → l.eraseDups.Nodup
  | [] => by simp
  | a :: l => by
    rw [List.eraseDups_cons, List.nodup_cons]
    exact ⟨by simp, nodup_eraseDups _⟩
termination_by l => l.length
decreasing_by exact Nat.lt_succ_of_le (List.length_filter_le _ _)

section Reach

variable {α : Type} [DecidableEq α] {next : α → List α} {start b : α} {seen fresh all : List α}
  {rounds : Nat}

-- What some rounds have come to: everything that can be reached and is not among `seen` or `fresh`
-- lies behind `fresh`.
structure Rounds (next : α → List α) (start : α) (seen fresh : List α) : Prop where
  sound : ∀ b ∈ seen ++ fresh, TransGen (fun a b => b ∈ next a) start b
  first : next start ⊆ seen ++ fresh
  closed : ∀ a ∈ seen, next a ⊆ seen ++ fresh
  nodup : (seen ++ fresh).Nodup

theorem rounds_start (next : α → List α) (start : α) :
    Rounds next start [] (next start).eraseDups where
  sound b hb := .single (by simpa using hb)
  first b hb := by simpa using hb
  closed := by simp
  nodup := nodup_eraseDups _

theorem Rounds.step (h : Rounds next start seen fresh) :
    Rounds next start (seen ++ fresh)
      ((fresh.flatMap next).filter (· ∉ seen ++ fresh)).eraseDups where
  sound b hb := by
    rcases List.mem_append.mp hb with hb | hb
    case inl => exact h.sound b hb
    case inr =>
      obtain ⟨hb, -⟩ := List.mem_filter.mp (List.mem_eraseDups.mp hb)
      obtain ⟨a, ha, hab⟩ := List.mem_flatMap.mp hb
      exact (h.sound a (List.mem_append_right _ ha)).tail hab
  first _ ha := List.mem_append_left _ (h.first ha)
  closed a ha b hab := by
    by_cases hb : b ∈ seen ++ fresh
    case pos => exact List.mem_append_left _ hb
    case neg =>
      rcases List.mem_append.mp ha with ha | ha
      case inl => exact absurd (h.closed a ha hab) hb
      case inr =>
        have hmem : b ∈ fresh.flatMap next := List.mem_flatMap.mpr ⟨a, ha, hab⟩
        exact List.mem_append_right _
          (List.mem_eraseDups.mpr (List.mem_filter.mpr ⟨hmem, by simpa using hb⟩))
  nodup := by
    refine List.nodup_append.mpr ⟨h.nodup, nodup_eraseDups _, fun a ha b hb hab => ?_⟩
    obtain ⟨-, hnew⟩ := List.mem_filter.mp (List.mem_eraseDups.mp hb)
    exact (by simpa using hnew : b ∉ seen ++ fresh) (hab ▸ ha)

omit [DecidableEq α] in
-- When nothing is new what was seen is all that can be reached.
theorem Rounds.mem_iff (h : Rounds next start seen []) :
    b ∈ seen ↔ TransGen (fun a b => b ∈ next a) start b := by
  have hclosed := h.closed
  have hfirst := h.first
  rw [List.append_nil] at hclosed hfirst
  refine ⟨fun hb => h.sound b (by simpa using hb), fun hb => ?_⟩
  induction hb with
  | single hb => exact hfirst hb
  | tail _ hb ih => exact hclosed _ ih hb

-- By induction on the rounds: each that is not the last sees something new, so as many rounds as
-- there are values are enough.
theorem Rounds.mem_go_iff (h : Rounds next start seen fresh) (hall : ∀ a, next a ⊆ all)
    (hrounds : all.length ≤ rounds + seen.length) :
    b ∈ reach.go next rounds seen fresh ↔ TransGen (fun a b => b ∈ next a) start b := by
  induction rounds generalizing seen fresh with
  | zero =>
    have hsubset : seen ++ fresh ⊆ all := fun b hb => by
      obtain ⟨a, -, hab⟩ := TransGen.tail'_iff.mp (h.sound b hb)
      exact hall a hab
    have hlength := (h.nodup.subperm hsubset).length_le
    obtain rfl : fresh = [] := by
      rw [List.length_append] at hlength
      exact List.length_eq_zero_iff.mp (by omega)
    exact h.mem_iff
  | succ rounds ih =>
    have hstep := h.step
    simp only [reach.go]
    split
    case isTrue hnil =>
      rw [List.isEmpty_iff.mp hnil] at hstep
      exact hstep.mem_iff
    case isFalse hnew =>
      refine ih hstep ?_
      have hfresh : fresh ≠ [] := by
        rintro rfl
        exact hnew rfl
      have := List.length_pos_of_ne_nil hfresh
      rw [List.length_append]
      omega

theorem mem_reach_iff (hall : ∀ a, next a ⊆ all) (hrounds : all.length ≤ rounds) :
    b ∈ reach next rounds start ↔ TransGen (fun a b => b ∈ next a) start b :=
  (rounds_start next start).mem_go_iff hall (by simpa using hrounds)

end Reach

section Components

variable {d : Digraph} {i j k : Nat} {c : List Nat} {components : List (List Nat)}

-- One or more edges lead from a node to another.
def Leads (d : Digraph) : Nat → Nat → Prop :=
  TransGen fun i j => (i, j) ∈ d.edges

theorem Leads.lt (h : d.Leads i j) : j < d.size := by
  obtain ⟨k, -, hkj⟩ := TransGen.tail'_iff.mp h
  exact (d.bounded _ hkj).2

theorem mem_reach_successors_iff : j ∈ reach d.successors d.size i ↔ d.Leads i j := by
  have hedge : ∀ i j, j ∈ d.successors i ↔ (i, j) ∈ d.edges := by simp [successors]
  have hall : ∀ i, d.successors i ⊆ List.range d.size := fun i j hj =>
    List.mem_range.mpr (d.bounded _ ((hedge i j).mp hj)).2
  rw [mem_reach_iff hall (by simp)]
  simp only [hedge]
  rfl

-- Two nodes are the same, or lead to each other.
def Connected (d : Digraph) (i j : Nat) : Prop :=
  i = j ∨ d.Leads i j ∧ d.Leads j i

theorem Connected.symm (h : d.Connected i j) : d.Connected j i :=
  h.imp Eq.symm And.symm

theorem Connected.trans (h : d.Connected i j) (h' : d.Connected j k) : d.Connected i k := by
  rcases h with rfl | h
  case inl => exact h'
  case inr =>
    rcases h' with rfl | h'
    case inl => exact .inr h
    case inr => exact .inr ⟨TransGen.trans h.1 h'.1, TransGen.trans h'.2 h.2⟩

-- The strongly connected components of a graph, in any order, and with their members in any order.
structure IsComponents (d : Digraph) (components : List (List Nat)) : Prop where
  covers : ∀ i, (∃ c ∈ components, i ∈ c) ↔ i < d.size
  connected : ∀ c ∈ components, ∀ i ∈ c, ∀ j, j ∈ c ↔ d.Connected i j
  nonempty : ∀ c ∈ components, c ≠ []
  nodup : ∀ c ∈ components, c.Nodup
  apart : components.Pairwise List.Disjoint

-- The nodes that are connected with one.
def component (d : Digraph) (i : Nat) : List Nat :=
  (List.range d.size).filter fun j =>
    i = j ∨ j ∈ reach d.successors d.size i ∧ i ∈ reach d.successors d.size j

theorem mem_component : j ∈ d.component i ↔ j < d.size ∧ d.Connected i j := by
  simp [component, mem_reach_successors_iff, Connected]

theorem component_eq (h : d.Connected i j) : d.component i = d.component j := by
  refine List.filter_congr fun k _ => decide_eq_decide.mpr ?_
  simp only [mem_reach_successors_iff]
  exact ⟨h.symm.trans, h.trans⟩

theorem components_eq : d.components = (List.range d.size).filterMap fun i =>
    if (d.component i).head? = some i then some (d.component i) else none := by
  have htable {i : Nat} (hi : i < d.size) (j : Nat) :
      (((List.range d.size).map fun i => reach d.successors d.size i)[i]?.any (·.contains j)) =
        decide (j ∈ reach d.successors d.size i) := by
    simp [hi]
  refine List.filterMap_congr fun i hi => ?_
  have hi := List.mem_range.mp hi
  have hcomponent : (List.range d.size).filter (fun j => decide (i = j) ||
      ((List.range d.size).map fun i => reach d.successors d.size i)[i]?.any (·.contains j) &&
        ((List.range d.size).map fun i => reach d.successors d.size i)[j]?.any (·.contains i)) =
      d.component i := by
    refine List.filter_congr fun j hj => ?_
    rw [htable hi, htable (List.mem_range.mp hj)]
    simp
  simp only [hcomponent]

theorem mem_components :
    c ∈ d.components ↔ ∃ i < d.size, (d.component i).head? = some i ∧ d.component i = c := by
  rw [components_eq, List.mem_filterMap]
  refine exists_congr fun i => ?_
  by_cases hhead : (d.component i).head? = some i <;> simp [hhead]

theorem eq_component_of_mem (hc : c ∈ d.components) (hi : i ∈ c) : c = d.component i := by
  obtain ⟨k, -, -, rfl⟩ := mem_components.mp hc
  exact component_eq (mem_component.mp hi).2

theorem isComponents_components (d : Digraph) : d.IsComponents d.components where
  covers i := by
    constructor
    case mp =>
      rintro ⟨c, hc, hi⟩
      exact (mem_component.mp (eq_component_of_mem hc hi ▸ hi)).1
    case mpr =>
      intro hi
      have hmem : i ∈ d.component i := mem_component.mpr ⟨hi, .inl rfl⟩
      cases hhead : (d.component i).head? with
      | none => simp [List.head?_eq_none_iff.mp hhead] at hmem
      | some k =>
        obtain ⟨hk, hconnected⟩ := mem_component.mp (List.mem_of_head? hhead)
        have heq := component_eq hconnected
        exact ⟨_, mem_components.mpr ⟨k, hk, heq ▸ hhead, rfl⟩, heq ▸ hmem⟩
  connected c hc i hi j := by
    obtain rfl := eq_component_of_mem hc hi
    rw [mem_component]
    refine ⟨And.right, fun h => ⟨?_, h⟩⟩
    rcases h with rfl | h
    case inl => exact (mem_component.mp hi).1
    case inr => exact h.1.lt
  nonempty c hc := by
    obtain ⟨i, -, hhead, rfl⟩ := mem_components.mp hc
    exact List.ne_nil_of_mem (List.mem_of_head? hhead)
  nodup c hc := by
    obtain ⟨i, -, -, rfl⟩ := mem_components.mp hc
    exact List.nodup_range.filter _
  apart := by
    rw [components_eq]
    refine List.pairwise_filterMap.mpr (List.nodup_range.imp ?_)
    intro i j hne c hc c' hc' k hk hk'
    obtain ⟨hi, rfl⟩ := by simpa using hc
    obtain ⟨hj, rfl⟩ := by simpa using hc'
    have heq : d.component i = d.component j :=
      component_eq ((mem_component.mp hk).2.trans (mem_component.mp hk').2.symm)
    exact hne (Option.some.inj (hi.symm.trans (heq ▸ hj)))

theorem one_lt_length_iff (hn : c.Nodup) (hi : i ∈ c) : 1 < c.length ↔ ∃ k ∈ c, i ≠ k := by
  match c, hn with
  | [j], _ => simp [List.mem_singleton.mp hi]
  | j :: k :: rest, hn =>
    refine iff_of_true (by simp) ?_
    by_cases hij : i = j
    case pos =>
      have hjk : j ∉ k :: rest := (List.nodup_cons.mp hn).1
      exact ⟨k, .tail _ List.mem_cons_self, fun hik => hjk (hij ▸ hik ▸ List.mem_cons_self)⟩
    case neg => exact ⟨j, List.mem_cons_self, hij⟩

-- A component is cyclic if its nodes lead to themselves.
theorem IsComponents.isCyclic_iff (h : d.IsComponents components) (hc : c ∈ components)
    (hi : i ∈ c) : d.isCyclic c ↔ d.Leads i i := by
  have leads {k : Nat} (hk : k ∈ c) (hne : i ≠ k) : d.Leads i k ∧ d.Leads k i :=
    ((h.connected c hc i hi k).mp hk).resolve_left hne
  have round {k : Nat} (hk : k ∈ c) (hne : i ≠ k) : d.Leads i i :=
    TransGen.trans (leads hk hne).1 (leads hk hne).2
  simp only [isCyclic, Bool.or_eq_true, decide_eq_true_eq, Option.any_eq_true,
    List.contains_iff_mem, one_lt_length_iff (h.nodup c hc) hi]
  constructor
  case mp =>
    rintro (⟨k, hk, hne⟩ | ⟨k, hk, hself⟩)
    case inl => exact round hk hne
    case inr =>
      by_cases hne : i = k
      case pos => exact .single (hne ▸ hself)
      case neg => exact round (List.mem_of_head? hk) hne
  case mpr =>
    intro hself
    obtain ⟨k, hik, hki⟩ := TransGen.head'_iff.mp hself
    by_cases hne : i = k
    case pos =>
      subst hne
      obtain ⟨j, rest, rfl⟩ := List.exists_cons_of_ne_nil (List.ne_nil_of_mem hi)
      by_cases hij : i = j
      case pos => exact .inr ⟨i, by rw [List.head?_cons, hij], hik⟩
      case neg => exact .inl ⟨j, List.mem_cons_self, hij⟩
    case neg =>
      have hback : d.Leads k i :=
        (Relation.reflTransGen_iff_eq_or_transGen.mp hki).resolve_left hne
      exact .inl ⟨k, (h.connected c hc i hi k).mpr (.inr ⟨.single hik, hback⟩), hne⟩

end Components

section InOrder

variable {d : Digraph} {c : List Nat} {components : List (List Nat)}

theorem mem_inOrder : c ∈ inOrder components ↔ ∃ c' ∈ components, c'.mergeSort = c := by
  simp [inOrder]

theorem pairwise_lt_mergeSort (h : c.Nodup) : c.mergeSort.Pairwise (· < ·) := by
  have hle : c.mergeSort.Pairwise (decide <| · ≤ ·) :=
    List.pairwise_mergeSort (by simp; omega) (by simp; omega) c
  have hne : c.mergeSort.Pairwise (· ≠ ·) := (List.mergeSort_perm c _).nodup_iff.mpr h
  refine (hle.and hne).imp fun ⟨hle, hne⟩ => ?_
  have := of_decide_eq_true hle
  omega

theorem pairwise_disjoint_inOrder (h : components.Pairwise List.Disjoint) :
    (inOrder components).Pairwise List.Disjoint := by
  have symm {c c' : List Nat} (h : c.Disjoint c') : c'.Disjoint c := fun _ hi hi' => h hi' hi
  refine ((List.mergeSort_perm _ _).pairwise_iff symm).mpr (List.pairwise_map.mpr ?_)
  exact h.imp fun h i hi hi' => h (List.mem_mergeSort.mp hi) (List.mem_mergeSort.mp hi')

-- Components that have no member in common differ in their first members.
theorem pairwise_head_inOrder (hne : ∀ c ∈ components, c ≠ [])
    (h : components.Pairwise List.Disjoint) :
    (inOrder components).Pairwise fun c c' => c.headD 0 < c'.headD 0 := by
  have hmem {c : List Nat} (hc : c ∈ inOrder components) : c.headD 0 ∈ c := by
    obtain ⟨c, hcs, rfl⟩ := mem_inOrder.mp hc
    have hne : c.mergeSort ≠ [] := fun hnil =>
      hne c hcs (hnil ▸ List.mergeSort_perm c _).nil_eq.symm
    obtain ⟨i, rest, hi⟩ := List.exists_cons_of_ne_nil hne
    simp [hi]
  have hle : (inOrder components).Pairwise fun c c' => decide (c.headD 0 ≤ c'.headD 0) :=
    List.pairwise_mergeSort (by simp; omega) (by simp; omega) _
  refine (hle.and (pairwise_disjoint_inOrder h)).imp_of_mem fun {c c'} hc hc' ⟨hle, hapart⟩ => ?_
  refine Nat.lt_of_le_of_ne (of_decide_eq_true hle) fun he => ?_
  exact hapart (hmem hc) (he ▸ hmem hc')

-- The cyclic components in order are the same, in whichever order they are found.
theorem IsComponents.inOrder_eq {components' : List (List Nat)} (h : d.IsComponents components)
    (h' : d.IsComponents components') :
    inOrder (components.filter d.isCyclic) = inOrder (components'.filter d.isCyclic) := by
  have subset {components components' : List (List Nat)} (h : d.IsComponents components)
      (h' : d.IsComponents components') (c : List Nat)
      (hc : c ∈ inOrder (components.filter d.isCyclic)) :
      c ∈ inOrder (components'.filter d.isCyclic) := by
    obtain ⟨c, hmem, rfl⟩ := mem_inOrder.mp hc
    obtain ⟨hc, hcyclic⟩ := List.mem_filter.mp hmem
    obtain ⟨i, hi⟩ := List.exists_mem_of_ne_nil c (h.nonempty c hc)
    obtain ⟨c', hc', hi'⟩ := (h'.covers i).mpr ((h.covers i).mp ⟨c, hc, hi⟩)
    have hcyclic' := (h'.isCyclic_iff hc' hi').mpr ((h.isCyclic_iff hc hi).mp hcyclic)
    refine mem_inOrder.mpr ⟨c', List.mem_filter.mpr ⟨hc', hcyclic'⟩, ?_⟩
    refine (pairwise_lt_mergeSort (h'.nodup c' hc')).eq_of_mem_iff
      (pairwise_lt_mergeSort (h.nodup c hc)) fun j => ?_
    rw [List.mem_mergeSort, List.mem_mergeSort, h'.connected c' hc' i hi', h.connected c hc i hi]
  have sorted {components : List (List Nat)} (h : d.IsComponents components) :=
    pairwise_head_inOrder (fun c hc => h.nonempty c (List.mem_filter.mp hc).1)
      (h.apart.filter d.isCyclic)
  have : Std.Irrefl fun c c' : List Nat => c.headD 0 < c'.headD 0 := ⟨fun _ => Nat.lt_irrefl _⟩
  have : Std.Antisymm fun c c' : List Nat => c.headD 0 < c'.headD 0 :=
    ⟨fun _ _ hlt hgt => absurd hlt (Nat.lt_asymm hgt)⟩
  exact (sorted h).eq_of_mem_iff (sorted h') fun c => ⟨subset h h' c, subset h' h c⟩

end InOrder

end Digraph

namespace Graph

section Leads

variable {g : Graph} {a b c : ModuleId} {i j : Nat}

-- A module of the graph has a reference to an id, which need not be in the graph.
def RefersTo (g : Graph) (a b : ModuleId) : Prop :=
  ∃ m ∈ g.modules, m.id = a ∧ ∃ r ∈ m.references, r.target = b

-- One or more references lead from an id to another.
def Leads (g : Graph) : ModuleId → ModuleId → Prop :=
  TransGen g.RefersTo

theorem RefersTo.mem_ids (h : g.RefersTo a b) : a ∈ g.ids := by
  obtain ⟨m, hm, rfl, -⟩ := h
  exact List.mem_map_of_mem hm

theorem Leads.mem_ids (h : g.Leads a b) : a ∈ g.ids := by
  obtain ⟨c, hac, -⟩ := TransGen.head'_iff.mp h
  exact hac.mem_ids

theorem mem_edges_iff : (i, j) ∈ g.digraph.edges ↔
    ∃ a b, g.ids[i]? = some a ∧ g.ids[j]? = some b ∧ g.RefersTo a b := by
  simp only [digraph, List.mem_eraseDups, List.mem_flatMap, List.mem_filterMap,
    Option.map_eq_some_iff, Prod.exists, Prod.mk.injEq, List.mem_zipIdx_iff_getElem?]
  constructor
  case mp =>
    rintro ⟨m, i, hm, r, hr, j, hj, rfl, rfl⟩
    obtain ⟨hj, htarget, -⟩ := List.idxOf?_eq_some_iff.mp hj
    exact ⟨m.id, r.target, by simp [ids, hm], List.getElem?_eq_some_iff.mpr ⟨hj, htarget⟩, m,
      List.mem_of_getElem? hm, rfl, r, hr, rfl⟩
  case mpr =>
    rintro ⟨a, b, ha, hb, m, hm, rfl, r, hr, rfl⟩
    obtain ⟨n, hn, hid⟩ : ∃ n, g.modules[i]? = some n ∧ n.id = m.id := by simpa [ids] using ha
    obtain rfl : n = m := List.inj_on_of_nodup_map g.nodup_ids (List.mem_of_getElem? hn) hm hid
    obtain ⟨hj, htarget⟩ := List.getElem?_eq_some_iff.mp hb
    refine ⟨n, i, hn, r, hr, j, List.idxOf?_eq_some_iff.mpr ⟨hj, htarget, fun k hk he => ?_⟩, rfl,
      rfl⟩
    exact hk.ne (g.nodup_ids.getElem_inj_iff.mp (he.trans htarget.symm))

-- A way from position to position is one from module to module: what lies outside the graph refers
-- to nothing.
theorem leads_iff (ha : g.ids[i]? = some a) (hb : g.ids[j]? = some b) :
    g.digraph.Leads i j ↔ g.Leads a b := by
  constructor
  case mp =>
    intro h
    induction h generalizing b with
    | single hij =>
      obtain ⟨a', b', ha', hb', hab⟩ := mem_edges_iff.mp hij
      obtain rfl : a' = a := Option.some.inj (ha'.symm.trans ha)
      obtain rfl : b' = b := Option.some.inj (hb'.symm.trans hb)
      exact .single hab
    | tail _ hkj ih =>
      obtain ⟨c, b', hc, hb', hcb⟩ := mem_edges_iff.mp hkj
      obtain rfl : b' = b := Option.some.inj (hb'.symm.trans hb)
      exact (ih hc).tail hcb
  case mpr =>
    intro h
    induction h generalizing j with
    | single hab => exact .single (mem_edges_iff.mpr ⟨_, _, ha, hb, hab⟩)
    | tail _ hcb ih =>
      obtain ⟨k, hk⟩ := List.mem_iff_getElem?.mp hcb.mem_ids
      exact (ih hk).tail (mem_edges_iff.mpr ⟨_, _, hk, hb, hcb⟩)

end Leads

section Groups

variable {g : Graph} {a b : ModuleId} {group : List ModuleId} {positions c : List Nat}
  {components : List (List Nat)}

theorem length_ids (g : Graph) : g.ids.length = g.digraph.size := by
  simp [ids, digraph, size]

theorem mem_idsAt : a ∈ g.idsAt positions ↔ ∃ i ∈ positions, g.ids[i]? = some a := by
  simp [idsAt]

theorem map_range_ids (g : Graph) :
    (List.range g.ids.length).map (g.ids[·]?) = g.ids.map some :=
  List.ext_getElem? fun i => by
    by_cases hi : i < g.ids.length <;> simp [hi]

theorem idsAt_range (g : Graph) : g.idsAt (List.range g.ids.length) = g.ids := by
  have hid := congrArg (List.filterMap id) g.map_range_ids
  rwa [List.filterMap_map, List.filterMap_map, Function.id_comp, Function.id_comp,
    List.filterMap_some] at hid

theorem mem_groupsOf : group ∈ g.groupsOf components ↔
    ∃ c ∈ components, g.digraph.isCyclic c ∧ g.idsAt c.mergeSort = group := by
  simp [groupsOf, Digraph.mem_inOrder, and_assoc]

theorem sublist_range {n : Nat} (h : positions.Pairwise (· < ·)) (hn : ∀ i ∈ positions, i < n) :
    positions.Sublist (List.range n) :=
  List.sublist_of_subperm_of_pairwise
    (List.Nodup.subperm (h.imp Nat.ne_of_lt) fun i hi => List.mem_range.mpr (hn i hi)) h
    List.pairwise_lt_range

section Components

variable (h : g.digraph.IsComponents components)
include h

-- Two modules are in one group if each leads to the other.
theorem mem_groupsOf_iff :
    (∃ group ∈ g.groupsOf components, a ∈ group ∧ b ∈ group) ↔ g.Leads a b ∧ g.Leads b a := by
  have mem {a : ModuleId} {c : List Nat} :
      a ∈ g.idsAt c.mergeSort ↔ ∃ i ∈ c, g.ids[i]? = some a := by
    simp only [mem_idsAt, List.mem_mergeSort]
  constructor
  case mp =>
    rintro ⟨_, hgroup, ha, hb⟩
    obtain ⟨c, hc, hcyclic, rfl⟩ := mem_groupsOf.mp hgroup
    obtain ⟨i, hi, ha⟩ := mem.mp ha
    obtain ⟨j, hj, hb⟩ := mem.mp hb
    rcases (h.connected c hc i hi j).mp hj with rfl | hij
    case inl =>
      obtain rfl : a = b := Option.some.inj (ha.symm.trans hb)
      have hself := (leads_iff ha ha).mp ((h.isCyclic_iff hc hi).mp hcyclic)
      exact ⟨hself, hself⟩
    case inr => exact ⟨(leads_iff ha hb).mp hij.1, (leads_iff hb ha).mp hij.2⟩
  case mpr =>
    rintro ⟨hab, hba⟩
    obtain ⟨i, ha⟩ := List.mem_iff_getElem?.mp hab.mem_ids
    obtain ⟨j, hb⟩ := List.mem_iff_getElem?.mp hba.mem_ids
    obtain ⟨hi, -⟩ := List.getElem?_eq_some_iff.mp ha
    obtain ⟨c, hc, hi⟩ := (h.covers i).mpr (g.length_ids ▸ hi)
    have hij := (leads_iff ha hb).mpr hab
    have hji := (leads_iff hb ha).mpr hba
    have hj := (h.connected c hc i hi j).mpr (.inr ⟨hij, hji⟩)
    have hcyclic := (h.isCyclic_iff hc hi).mpr (Relation.TransGen.trans hij hji)
    exact ⟨_, mem_groupsOf.mpr ⟨c, hc, hcyclic, rfl⟩, mem.mpr ⟨i, hi, ha⟩, mem.mpr ⟨j, hj, hb⟩⟩

theorem lt_of_mem_inOrder (hc : c ∈ Digraph.inOrder (components.filter g.digraph.isCyclic)) :
    c ≠ [] ∧ c.Pairwise (· < ·) ∧ ∀ i ∈ c, i < g.ids.length := by
  obtain ⟨c, hcyclic, rfl⟩ := Digraph.mem_inOrder.mp hc
  have hc := (List.mem_filter.mp hcyclic).1
  refine ⟨fun hnil => h.nonempty c hc (hnil ▸ List.mergeSort_perm c _).nil_eq.symm,
    Digraph.pairwise_lt_mergeSort (h.nodup c hc), fun i hi => ?_⟩
  rw [g.length_ids]
  exact (h.covers i).mp ⟨c, hc, List.mem_mergeSort.mp hi⟩

theorem sublist_of_mem_groupsOf (hgroup : group ∈ g.groupsOf components) :
    group ≠ [] ∧ group.Sublist g.ids := by
  obtain ⟨c, hc, rfl⟩ := List.mem_map.mp hgroup
  obtain ⟨hne, hlt, hbound⟩ := lt_of_mem_inOrder h hc
  refine ⟨?_, ?_⟩
  · obtain ⟨i, rest, rfl⟩ := List.exists_cons_of_ne_nil hne
    have hi := hbound i List.mem_cons_self
    exact List.ne_nil_of_mem (mem_idsAt.mpr ⟨i, List.mem_cons_self, List.getElem?_eq_getElem hi⟩)
  · have hsublist := (sublist_range hlt hbound).filterMap (g.ids[·]?)
    exact g.idsAt_range ▸ hsublist

-- The group of a module is known by its first member, so that groups stand in the order of these.
theorem head?_groupsOf :
    ((g.groupsOf components).map List.head?).Sublist (g.ids.map some) := by
  have hheads : (g.groupsOf components).map List.head? =
      ((Digraph.inOrder (components.filter g.digraph.isCyclic)).map (·.headD 0)).map
        (g.ids[·]?) := by
    rw [groupsOf, List.map_map, List.map_map]
    refine List.map_congr_left fun c hc => ?_
    obtain ⟨hne, -, hbound⟩ := lt_of_mem_inOrder h hc
    obtain ⟨i, rest, rfl⟩ := List.exists_cons_of_ne_nil hne
    simp [idsAt, hbound i List.mem_cons_self]
  have hlt := Digraph.pairwise_head_inOrder
    (fun c hc => h.nonempty c (List.mem_filter.mp hc).1) (h.apart.filter g.digraph.isCyclic)
  have hbound : ∀ i ∈ (Digraph.inOrder (components.filter g.digraph.isCyclic)).map (·.headD 0),
      i < g.ids.length := by
    intro i hi
    obtain ⟨c, hc, rfl⟩ := List.mem_map.mp hi
    obtain ⟨hne, -, hbound⟩ := lt_of_mem_inOrder h hc
    obtain ⟨i, rest, rfl⟩ := List.exists_cons_of_ne_nil hne
    exact hbound i List.mem_cons_self
  rw [hheads, ← g.map_range_ids]
  exact (sublist_range (List.pairwise_map.mpr hlt) hbound).map _

theorem disjoint_groupsOf : (g.groupsOf components).Pairwise List.Disjoint := by
  have hapart := Digraph.pairwise_disjoint_inOrder (h.apart.filter g.digraph.isCyclic)
  refine List.pairwise_map.mpr (hapart.imp fun hapart a ha ha' => ?_)
  obtain ⟨i, hi, ha⟩ := mem_idsAt.mp ha
  obtain ⟨j, hj, ha'⟩ := mem_idsAt.mp ha'
  obtain ⟨hbound, -⟩ := List.getElem?_eq_some_iff.mp ha
  obtain rfl : i = j := (List.getElem?_inj hbound g.nodup_ids).mp (ha.trans ha'.symm)
  exact hapart hi hj

end Components

-- Whatever finds the strongly connected components, the groups are the same.
theorem groupsOf_eq_circularGroups (h : g.digraph.IsComponents components) :
    g.groupsOf components = g.circularGroups := by
  rw [groupsOf, h.inOrder_eq g.digraph.isComponents_components]
  rfl

-- The circular groups are the cyclic part of a graph, and no reference has to lead to a module for
-- that: a module is in a group if references lead from it to itself, two modules are in one group
-- if references lead from each to the other, no module is in two groups, and the order of discovery
-- is kept inside groups and among them.
theorem circularGroups_exact (g : Graph) :
    (∀ a, (∃ group ∈ g.circularGroups, a ∈ group) ↔ g.Leads a a) ∧
    (∀ a b, (∃ group ∈ g.circularGroups, a ∈ group ∧ b ∈ group) ↔ g.Leads a b ∧ g.Leads b a) ∧
    g.circularGroups.Pairwise List.Disjoint ∧
    (∀ group ∈ g.circularGroups, group ≠ [] ∧ group.Sublist g.ids) ∧
    (g.circularGroups.map List.head?).Sublist (g.ids.map some) := by
  have h := g.digraph.isComponents_components
  refine ⟨fun a => ?_, fun a b => mem_groupsOf_iff h, disjoint_groupsOf h,
    fun group => sublist_of_mem_groupsOf h, head?_groupsOf h⟩
  simpa [circularGroups] using mem_groupsOf_iff h (a := a) (b := a)

end Groups

end Graph
end LuaBundle

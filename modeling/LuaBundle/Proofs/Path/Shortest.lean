import Mathlib.Data.List.Induction
import LuaBundle.Proofs.Path.Rebase

namespace LuaBundle.Path

variable {p root way : Path} {dir target names : List OsString} {c : Component}

-- A relative path that comes to a place when it is taken from a directory.
structure Leads (way root p : Path) : Prop where
  relative : way.isAbsolute = false
  arrives : (root.join way).clean = p

section Stack

theorem stackOf_inj : stackOf dir = stackOf target ↔ dir = target := by
  rw [stackOf, stackOf, List.append_left_inj, List.map_inj_right name_injective, List.reverse_inj]

-- Leaving takes one step up for each name.
theorem foldl_cleanStep_leave (front leave : List OsString) :
    (List.replicate leave.length .up).foldl cleanStep (stackOf (front ++ leave)) =
      stackOf front := by
  induction leave using List.reverseRecOn with
  | nil => simp
  | append_singleton leave n ih =>
    rw [List.length_append, List.length_singleton, List.replicate_succ, List.foldl_cons,
      ← List.append_assoc, stackOf_concat]
    exact ih

theorem foldl_cleanStep_enter (front enter : List OsString) :
    (enter.map .name).foldl cleanStep (stackOf front) = stackOf (front ++ enter) := by
  simp [foldl_cleanStep_names, stackOf]

-- The steps to a place, as they are read by people, lead there by the names that people read.
theorem foldl_stepsTo_legible (front leave enter : List OsString) :
    ((List.replicate leave.length Component.up ++ enter.map Component.name).map
      Component.legible).foldl cleanStep (stackOf (front ++ leave)) =
        stackOf (front ++ enter.map OsString.legible) := by
  have hup : (List.replicate leave.length Component.up).map Component.legible =
      List.replicate leave.length .up := List.map_replicate
  have hnames : (enter.map Component.name).map Component.legible =
      (enter.map OsString.legible).map .name := by
    simp [Function.comp_def, Component.legible]
  rw [List.map_append, hup, hnames, List.foldl_append, foldl_cleanStep_leave, foldl_cleanStep_enter]

theorem Leads.stack_eq (h : Leads way root p) :
    way.components.foldl cleanStep root.stack = p.stack := by
  rw [← stack_join h.relative, ← stack_clean, h.arrives]

theorem leads_of_stack_eq (hp : Plain p) (hr : way.isAbsolute = false)
    (h : way.components.foldl cleanStep root.stack = p.stack) : Leads way root p where
  relative := hr
  arrives := by rw [clean_eq_of_stack_eq ((stack_join hr).trans h), hp.clean]

end Stack

section Distance

-- The number of steps from one place to another.
def distance (dir target : List OsString) : Nat :=
  (stepsTo target dir).length

theorem distance_eq (dir target : List OsString) :
    distance dir target =
      (afterCommon dir target).1.length + (afterCommon dir target).2.length := by
  simp [distance, stepsTo]

theorem distance_self (dir : List OsString) : distance dir dir = 0 := by
  have h := afterCommon_append dir [] []
  rw [List.append_nil] at h
  rw [distance_eq, h]
  rfl

-- One more name changes a distance by one.
theorem distance_concat (dir target : List OsString) (n : OsString) :
    distance dir target ≤ distance (dir ++ [n]) target + 1 ∧
      distance (dir ++ [n]) target ≤ distance dir target + 1 := by
  rw [distance_eq, distance_eq]
  fun_induction afterCommon dir target with
  | case1 as b bs ih => rwa [List.cons_append, afterCommon_cons_self]
  | case2 a as b bs hne =>
    simp [afterCommon, hne]
    omega
  | case3 as bs h =>
    cases as with
    | cons a as =>
      cases bs with
      | nil => simp [afterCommon]
      | cons b bs => exact absurd rfl (h a as b bs rfl)
    | nil =>
      cases bs with
      | nil => simp [afterCommon]
      | cons b bs =>
        by_cases hn : n = b
        case pos => simp [afterCommon, hn]; omega
        case neg => simp [afterCommon, hn]; omega

theorem distance_dropLast_ge (dir target : List OsString) :
    distance dir target ≤ distance dir.dropLast target + 1 := by
  rcases dir.eq_nil_or_concat with rfl | ⟨dir, n, rfl⟩
  case inl => exact Nat.le_succ _
  case inr =>
    rw [List.concat_eq_append, List.dropLast_concat]
    exact (distance_concat dir target n).2

-- One step comes no more than one step nearer to any place.
theorem exists_cleanStep (h : c = .here ∨ IsInner c) (dir target : List OsString) :
    ∃ dir', cleanStep (stackOf dir) c = stackOf dir' ∧
      distance dir target ≤ distance dir' target + 1 := by
  rcases h with rfl | rfl | ⟨n, rfl, -⟩
  case inl => exact ⟨dir, rfl, Nat.le_succ _⟩
  case inr.inl => exact ⟨dir.dropLast, cleanStep_up dir, distance_dropLast_ge dir target⟩
  case inr.inr =>
    exact ⟨dir ++ [n], by rw [cleanStep_name, stackOf_concat], (distance_concat dir target n).1⟩

theorem distance_le_of_foldl {steps : List Component} (h : ∀ c ∈ steps, c = .here ∨ IsInner c)
    (hf : steps.foldl cleanStep (stackOf dir) = stackOf target) :
    distance dir target ≤ steps.length := by
  induction steps generalizing dir with
  | nil => rw [stackOf_inj.mp hf, distance_self, List.length_nil]
  | cons c steps ih =>
    obtain ⟨hc, hsteps⟩ := List.forall_mem_cons.mp h
    obtain ⟨dir', hstep, hone⟩ := exists_cleanStep hc dir target
    rw [List.foldl_cons, hstep] at hf
    exact hone.trans (Nat.succ_le_succ (ih hsteps hf))

theorem Leads.distance_le (hd : ∀ n ∈ dir, IsName n) (ht : ∀ n ∈ target, IsName n)
    (h : Leads way (ofNames dir) (ofNames target)) :
    distance dir target ≤ way.components.length := by
  refine distance_le_of_foldl (fun c hc => isInner_of_mem_components (by simp [h.relative]) hc) ?_
  rw [← stack_ofNames hd, ← stack_ofNames ht, h.stack_eq]

end Distance

section Legible

-- Whether the names that a path enters on its way from a directory are UTF-8.
def LegibleFrom (p root : Path) : Prop :=
  ∀ c ∈ (afterCommon root.components p.components).2, c.spelling.str?.isSome

instance (p root : Path) : Decidable (LegibleFrom p root) :=
  inferInstanceAs (Decidable (∀ c ∈ _, _))

theorem legibleFrom_ofNames_iff (hd : ∀ n ∈ dir, IsName n) (ht : ∀ n ∈ target, IsName n) :
    LegibleFrom (ofNames target) (ofNames dir) ↔
      (afterCommon dir target).2.map OsString.legible = (afterCommon dir target).2 := by
  rw [LegibleFrom, components_ofNames hd, components_ofNames ht, afterCommon_cons_self,
    afterCommon_map name_injective, List.forall_mem_map]
  simp only [Component.spelling, OsString.str?_isSome_iff]
  conv_rhs => rw [← List.map_id (afterCommon dir target).2, List.map_map]
  exact List.map_inj_left.symm

theorem isAbsolute_relativeTo (hroot : Plain root) (hp : Plain p) :
    (ofString (p.relativeTo root)).isAbsolute = false := by
  obtain ⟨dir, hd, rfl⟩ := hroot.exists_names
  obtain ⟨target, ht, rfl⟩ := hp.exists_names
  refine Bool.eq_false_iff.mpr fun ha => ?_
  have hcomponents := components_of_isAbsolute ha
  rw [components_relativeTo hd ht] at hcomponents
  have hroot := forall_isInner_legible (isInner_of_mem_stepsTo dir ht) .root
    (hcomponents ▸ List.mem_cons_self)
  rcases hroot with hup | ⟨n, hname, -⟩
  · cases hup
  · cases hname

-- The way to a path, as people read it, leads there just if the names that it enters are UTF-8.
theorem leads_relativeTo_iff (hroot : Plain root) (hp : Plain p) :
    Leads (ofString (p.relativeTo root)) root p ↔ p.LegibleFrom root := by
  have hr := isAbsolute_relativeTo hroot hp
  obtain ⟨dir, hd, rfl⟩ := hroot.exists_names
  obtain ⟨target, ht, rfl⟩ := hp.exists_names
  obtain ⟨front, hdir, htarget⟩ := exists_front dir target
  have hfold := foldl_stepsTo_legible front (afterCommon dir target).1 (afterCommon dir target).2
  rw [← hdir] at hfold
  rw [legibleFrom_ofNames_iff hd ht]
  constructor
  case mp =>
    intro h
    have hstack := h.stack_eq
    rw [components_relativeTo hd ht, stack_ofNames hd, stack_ofNames ht] at hstack
    have htarget' := stackOf_inj.mp (hfold.symm.trans hstack)
    exact List.append_cancel_left (htarget'.trans htarget)
  case mpr =>
    intro hlegible
    refine leads_of_stack_eq hp hr ?_
    rw [components_relativeTo hd ht, stack_ofNames hd, stack_ofNames ht]
    rw [hlegible, ← htarget] at hfold
    exact hfold

theorem splitOn_append_of_not_mem {x : List UInt8} (h : slash ∉ x) (y : List UInt8) :
    (x ++ y).splitOn slash = (y.splitOn slash).modifyHead (x ++ ·) := by
  induction x with
  | nil => exact (congrFun List.modifyHead_id _).symm
  | cons b x ih =>
    obtain ⟨hb, hx⟩ := not_or.mp (mt List.mem_cons.mpr h)
    rw [List.cons_append, List.splitOn_cons_eq_if_modifyHead, if_neg (by simpa using Ne.symm hb),
      ih hx]
    cases y.splitOn slash <;> rfl

-- The separators of a text are those of its bytes.
theorem splitOn_encode (s : List Char) :
    (Text.encode s).splitOn slash = (s.splitOn '/').map Text.encode := by
  induction s with
  | nil => rfl
  | cons c s ih =>
    rw [Text.encode_cons, List.splitOn_cons_eq_if_modifyHead]
    by_cases hc : c = '/'
    case pos =>
      have hbytes : String.utf8EncodeChar '/' = [slash] := by decide
      rw [hc, hbytes, List.singleton_append, List.splitOn_cons_eq_if_modifyHead, ih]
      rfl
    case neg =>
      have hbytes : slash ∉ String.utf8EncodeChar c :=
        mt (Text.Utf8.mem_utf8EncodeChar_iff (d := '/') (by decide)).mp hc
      rw [splitOn_append_of_not_mem hbytes, ih, if_neg (by simpa using hc)]
      cases s.splitOn '/' <;> rfl

theorem isSome_str?_component {segment : List UInt8} (h : p.str?.isSome)
    (hs : segment ∈ pieces p.bytes) : (Segment.component segment).spelling.str?.isSome := by
  unfold Segment.component
  split
  case isTrue => exact OsString.str?_ofString ".." ▸ rfl
  case isFalse =>
    obtain ⟨text, htext⟩ := Option.isSome_iff_exists.mp h
    have hsplit := (List.mem_filter.mp hs).1
    rw [OsString.str?_eq_some_iff.mp htext, OsString.bytes_ofString, splitOn_encode] at hsplit
    obtain ⟨t, -, rfl⟩ := List.mem_map.mp hsplit
    have ht := OsString.str?_ofString (String.ofList t)
    rw [OsString.ofString, String.toList_ofList] at ht
    exact ht ▸ rfl

-- All names of a path that is UTF-8 are.
theorem legibleFrom_of_isSome (h : p.str?.isSome) (root : Path) : p.LegibleFrom root := by
  intro c hc
  obtain ⟨start, body, hp⟩ : ∃ start body, parts p.bytes = (start, body) := ⟨_, _, rfl⟩
  have hc := mem_of_mem_afterCommon hc
  rw [components_of_parts hp, ← pieces_of_parts hp] at hc
  rcases List.mem_append.mp hc with hc | hc
  case inl =>
    rcases mem_start hp hc with rfl | rfl
    · exact OsString.str?_ofString "/" ▸ rfl
    · exact OsString.str?_ofString "." ▸ rfl
  case inr =>
    obtain ⟨segment, hs, rfl⟩ := List.mem_map.mp hc
    exact isSome_str?_component h hs

end Legible

-- The way from a directory to a path leads there just if the names that it enters are UTF-8. No
-- relative path with fewer components does, and no other path of which this holds has the same way.
theorem leads_relativeTo (hroot : Plain root) (hp : Plain p) :
    (Leads (ofString (p.relativeTo root)) root p ↔ p.LegibleFrom root) ∧
    (∀ way, Leads way root p →
      (ofString (p.relativeTo root)).components.length ≤ way.components.length) ∧
    ∀ q, Plain q → p.LegibleFrom root → q.LegibleFrom root →
      q.relativeTo root = p.relativeTo root → q = p := by
  refine ⟨leads_relativeTo_iff hroot hp, fun way h => ?_, fun q hq hlp hlq he => ?_⟩
  · obtain ⟨dir, hd, rfl⟩ := hroot.exists_names
    obtain ⟨target, ht, rfl⟩ := hp.exists_names
    rw [components_relativeTo hd ht, List.length_map]
    exact h.distance_le hd ht
  · have hway := ((leads_relativeTo_iff hroot hp).mpr hlp).arrives
    have hway' := ((leads_relativeTo_iff hroot hq).mpr hlq).arrives
    rw [← hway', he, hway]

theorem leads_relativeTo_beside :
    Plain ⟨"/p/src"⟩ ∧ Plain ⟨"/p/lib/a.lua"⟩ ∧ Plain ⟨"/lib/a.lua"⟩ ∧
    (⟨"/p/lib/a.lua"⟩ : Path).LegibleFrom ⟨"/p/src"⟩ ∧
    (⟨"/p/lib/a.lua"⟩ : Path).relativeTo ⟨"/p/src"⟩ = "../lib/a.lua" ∧
    Leads ⟨"../lib/a.lua"⟩ ⟨"/p/src"⟩ ⟨"/p/lib/a.lua"⟩ ∧
    Leads ⟨"x/../../../p/lib/a.lua"⟩ ⟨"/p/src"⟩ ⟨"/p/lib/a.lua"⟩ ∧
    (⟨"../lib/a.lua"⟩ : Path).components.length ≤
      (⟨"x/../../../p/lib/a.lua"⟩ : Path).components.length ∧
    (⟨"/lib/a.lua"⟩ : Path).relativeTo ⟨"/p/src"⟩ ≠ "../lib/a.lua" := by
  have hroot : Plain ⟨"/p/src"⟩ := ⟨by decide, by decide⟩
  have hp : Plain ⟨"/p/lib/a.lua"⟩ := ⟨by decide, by decide⟩
  have hq : Plain ⟨"/lib/a.lua"⟩ := ⟨by decide, by decide⟩
  have hlegible : (⟨"/p/lib/a.lua"⟩ : Path).LegibleFrom ⟨"/p/src"⟩ := by decide +kernel
  have hlegible' : (⟨"/lib/a.lua"⟩ : Path).LegibleFrom ⟨"/p/src"⟩ := by decide +kernel
  have hrelative : (⟨"/p/lib/a.lua"⟩ : Path).relativeTo ⟨"/p/src"⟩ = "../lib/a.lua" := by
    decide +kernel
  have hway : Leads ⟨"x/../../../p/lib/a.lua"⟩ ⟨"/p/src"⟩ ⟨"/p/lib/a.lua"⟩ :=
    ⟨by decide, by decide⟩
  obtain ⟨hleads, hshortest, hunique⟩ := leads_relativeTo hroot hp
  rw [hrelative] at hleads hshortest hunique
  exact ⟨hroot, hp, hq, hlegible, hrelative, hleads.mpr hlegible, hway, hshortest _ hway, fun he =>
    absurd (hunique _ hq hlegible hlegible' he) (by decide)⟩

-- The ways to files whose names are not UTF-8 read the same and lead to none of them.
theorem relativeTo_illegible :
    Plain ⟨"/p"⟩ ∧ Plain (illegible 0xFF) ∧ Plain (illegible 0xFE) ∧
    illegible 0xFF ≠ illegible 0xFE ∧
    (illegible 0xFF).relativeTo ⟨"/p"⟩ = "\uFFFD.lua" ∧
    (illegible 0xFE).relativeTo ⟨"/p"⟩ = "\uFFFD.lua" ∧
    ¬ Leads (ofString ((illegible 0xFF).relativeTo ⟨"/p"⟩)) ⟨"/p"⟩ (illegible 0xFF) := by
  have hroot : Plain ⟨"/p"⟩ := ⟨by decide, by decide⟩
  have hp : Plain (illegible 0xFF) := ⟨by decide, by decide⟩
  have hq : Plain (illegible 0xFE) := ⟨by decide, by decide⟩
  refine ⟨hroot, hp, hq, by decide, by decide +kernel, by decide +kernel, fun h => ?_⟩
  have harrives := h.arrives
  revert harrives
  decide +kernel

-- The way to a directory above has no names, and the one to the directory itself no steps.
example : (⟨"/"⟩ : Path).relativeTo ⟨"/p/src"⟩ = "../.." ∧
    (⟨"/p/src"⟩ : Path).relativeTo ⟨"/p/src"⟩ = "" := by
  decide +kernel

end LuaBundle.Path

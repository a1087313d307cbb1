import Mathlib.Data.List.TakeWhile
import LuaBundle.Path.Relative
import LuaBundle.Proofs.Path.Clean

namespace LuaBundle

namespace Component

-- The component that people read where the path has this one.
def legible : Component → Component
  | name n => name n.legible
  | c => c

theorem spelling_legible (c : Component) : c.legible.spelling = c.spelling.legible := by
  cases c with
  | name n => rfl
  | _ => decide +kernel

end Component

namespace Path

variable {p q root : Path}

theorem slashed_eq_text (h : 0x5C ∉ p.bytes) : p.slashed = p.text := by
  have hnone : '\\' ∉ p.text.toList := fun hmem =>
    h ((OsString.mem_text_iff (by decide) (by decide)).mp hmem)
  have hmap : p.text.toList.map (fun c => if c = '\\' then '/' else c) = p.text.toList := by
    refine (List.map_congr_left fun c hc => ?_).trans (List.map_id _)
    exact if_neg fun he : c = '\\' => hnone (he ▸ hc)
  rw [slashed, hmap, String.ofList_toList]

-- The parent of an absolute path other than the root is absolute.
theorem isAbsolute_parent (h : Plain p) (hne : p ≠ ⟨"/"⟩) : p.parent.isAbsolute := by
  cases hs : p.bytes with
  | nil => simpa [isAbsolute, hs] using h.absolute
  | cons c s =>
    obtain rfl : c = slash := by simpa [isAbsolute, hs] using h.absolute
    have hseg : ∃ segment ∈ s.splitOn slash, ¬ isVoid segment := by
      refine Classical.byContradiction fun hn => hne ?_
      have hsegments : p.segments = [] := by
        rw [segments, hs, List.drop_succ_cons, List.drop_zero, List.filter_eq_nil_iff]
        intro segment hmem
        cases hv : isVoid segment with
        | true => simp
        | false => exact absurd ⟨segment, hmem, by simp [hv]⟩ hn
      have hc := components_of_isAbsolute h.absolute
      rw [hsegments] at hc
      rw [← h.clean, clean, hc]
      rfl
    obtain ⟨segment, hmem, hv⟩ := hseg
    rw [parent, parent?, hs, parts_cons_slash]
    dsimp only
    cases hd : (s.splitOn slash).reverse.dropWhile isVoid with
    | nil => exact absurd (List.dropWhile_eq_nil_iff.mp hd segment (by simpa using hmem)) hv
    | cons d before => rfl

section Legible

variable {n : OsString} {c : Component} {cs : List Component}

theorem IsName.text (h : IsName n) : n.text.toList ≠ [] ∧ '/' ∉ n.text.toList := by
  refine ⟨fun hempty => h.1 ?_, mt (OsString.mem_text_iff (by decide) (by decide)).mp h.2.1⟩
  have hempty : n.text = "" := String.toList_injective hempty
  rw [(OsString.text_eq_iff (by simp)).mp hempty]
  rfl

-- A name reads as a name.
theorem IsName.legible (h : IsName n) : IsName n.legible := by
  obtain ⟨hne, hslash, hdot, hup⟩ := h
  have unlike {text : String} (ht : ∀ c ∈ text.toList, c.toNat < 0x80 ∧ c ≠ '\x00')
      (hn : n.bytes ≠ (OsString.ofString text).bytes) :
      n.legible.bytes ≠ (OsString.ofString text).bytes := by
    rw [OsString.bytes_injective.ne_iff] at hn ⊢
    exact mt (OsString.legible_eq_ofString_iff ht).mp hn
  have hslash : slash ∉ n.legible.bytes :=
    mt (OsString.mem_legible_iff (c := '/') (by decide) (by decide)).mp hslash
  exact ⟨@unlike "" (by simp) hne, hslash, @unlike "." (by simp) hdot, @unlike ".." (by simp) hup⟩

theorem IsInner.legible (h : IsInner c) : IsInner c.legible := by
  rcases h with rfl | ⟨n, rfl, hn⟩
  case inl => exact .inl rfl
  case inr => exact .inr ⟨_, rfl, hn.legible⟩

theorem forall_isInner_legible (h : ∀ c ∈ cs, IsInner c) :
    ∀ c ∈ cs.map Component.legible, IsInner c := by
  intro c hc
  obtain ⟨d, hd, rfl⟩ := List.mem_map.mp hc
  exact (h d hd).legible

theorem encode_intercalate (cs : List Component) :
    Text.encode (String.intercalate "/" (cs.map (·.spelling.text))).toList =
      ofComponents.spell (cs.map Component.legible) := by
  have hsep : Text.encode ['/'] = [slash] := by decide
  rw [String.toList_intercalate, Text.encode_intercalate, ofComponents.spell]
  simp only [List.map_map, Function.comp_def, Component.spelling_legible, OsString.legible,
    OsString.bytes_ofString]
  rw [← hsep]
  rfl

end Legible

section RelativeTo

variable {dir target : List OsString}

theorem mem_of_mem_afterCommon {α : Type} [DecidableEq α] {as bs : List α} {b : α}
    (h : b ∈ (afterCommon as bs).2) : b ∈ bs := by
  fun_induction afterCommon as bs with
  | case1 as c bs ih => exact .tail c (ih h)
  | case2 => exact h
  | case3 => exact h

theorem afterCommon_cons_self {α : Type} [DecidableEq α] (a : α) (as bs : List α) :
    afterCommon (a :: as) (a :: bs) = afterCommon as bs := by
  rw [afterCommon, if_pos rfl]

theorem afterCommon_append {α : Type} [DecidableEq α] (front as bs : List α) :
    afterCommon (front ++ as) (front ++ bs) = afterCommon as bs := by
  induction front with
  | nil => rfl
  | cons a front ih => rw [List.cons_append, List.cons_append, afterCommon_cons_self, ih]

theorem afterCommon_map {α β : Type} [DecidableEq α] [DecidableEq β] {f : α → β}
    (hf : Function.Injective f) (as bs : List α) :
    afterCommon (as.map f) (bs.map f) =
      ((afterCommon as bs).1.map f, (afterCommon as bs).2.map f) := by
  fun_induction afterCommon as bs with
  | case1 as b bs ih => rw [List.map_cons, List.map_cons, afterCommon_cons_self, ih]
  | case2 a as b bs hne => rw [List.map_cons, List.map_cons, afterCommon, if_neg (hf.ne hne)]
  | case3 as bs h =>
    cases as with
    | nil => cases bs <;> rfl
    | cons a as =>
      cases bs with
      | nil => rfl
      | cons b bs => exact absurd rfl (h a as b bs rfl)

theorem name_injective : Function.Injective Component.name :=
  fun _ _ => Component.name.inj

theorem exists_front {α : Type} [DecidableEq α] (as bs : List α) :
    ∃ front, as = front ++ (afterCommon as bs).1 ∧ bs = front ++ (afterCommon as bs).2 := by
  fun_induction afterCommon as bs with
  | case1 as b bs ih =>
    obtain ⟨front, has, hbs⟩ := ih
    exact ⟨b :: front, congrArg (b :: ·) has, congrArg (b :: ·) hbs⟩
  | case2 => exact ⟨[], rfl, rfl⟩
  | case3 => exact ⟨[], rfl, rfl⟩

-- The steps from one place to another: up to where their ways part, and down from there.
def stepsTo (target dir : List OsString) : List Component :=
  let (leave, enter) := afterCommon dir target
  List.replicate leave.length .up ++ enter.map .name

theorem isInner_of_mem_stepsTo (dir : List OsString) (ht : ∀ n ∈ target, IsName n) :
    ∀ c ∈ stepsTo target dir, IsInner c :=
  isInner_of_mem_up_names _ fun n hn => ht n (mem_of_mem_afterCommon hn)

theorem relativeTo_eq (hd : ∀ n ∈ dir, IsName n) (ht : ∀ n ∈ target, IsName n) :
    (ofNames target).relativeTo (ofNames dir) =
      String.intercalate "/" ((stepsTo target dir).map (·.spelling.text)) := by
  rw [relativeTo, components_ofNames hd, components_ofNames ht, if_neg (by simp),
    afterCommon_cons_self, afterCommon_map name_injective, stepsTo]
  simp [Function.comp_def, Component.spelling, List.map_const']

-- The way between two places has just these steps, as they are read for people, also where it is
-- empty.
theorem components_relativeTo (hd : ∀ n ∈ dir, IsName n) (ht : ∀ n ∈ target, IsName n) :
    (ofString ((ofNames target).relativeTo (ofNames dir))).components =
      (stepsTo target dir).map Component.legible := by
  have hinner := forall_isInner_legible (isInner_of_mem_stepsTo dir ht)
  have hway : (ofString ((ofNames target).relativeTo (ofNames dir))) =
      ofComponents ((stepsTo target dir).map Component.legible) := by
    rw [ofComponents_eq hinner, ← encode_intercalate, relativeTo_eq hd ht]
    rfl
  rw [hway]
  by_cases hs : (stepsTo target dir).map Component.legible = []
  case pos => rw [hs]; rfl
  case neg => exact components_ofComponents hs hinner

-- A way from one absolute path to another starts with no separator.
theorem head?_relativeTo (hroot : root.isAbsolute) (hp : Plain p) :
    (p.relativeTo root).toList.head? ≠ some '/' := by
  obtain ⟨names, hn, rfl⟩ := hp.exists_names
  have hp := components_ofNames hn
  have hr := components_of_isAbsolute hroot
  rw [relativeTo, if_neg (by rw [hp, hr]; simp), hp, hr, afterCommon_cons_self]
  dsimp only
  rw [String.toList_intercalate]
  refine head?_intercalate fun t ht => ?_
  obtain ⟨text, htext, rfl⟩ := List.mem_map.mp ht
  rcases List.mem_append.mp htext with hmem | hmem
  case inl =>
    obtain ⟨c, -, rfl⟩ := List.mem_map.mp hmem
    decide
  case inr =>
    obtain ⟨c, hc, rfl⟩ := List.mem_map.mp hmem
    obtain ⟨n, hname, rfl⟩ := List.mem_map.mp (mem_of_mem_afterCommon hc)
    exact (hn n hname).text

-- A file whose name, but for the ending, is a single byte: no UTF-8 if it is past ASCII.
def illegible (first : UInt8) : Path :=
  (⟨"/p"⟩ : Path).join (withEnding ⟨⟨[first]⟩⟩ ".lua")

end RelativeTo

end Path
end LuaBundle

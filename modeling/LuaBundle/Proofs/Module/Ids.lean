import Mathlib.Data.List.Pairwise
import LuaBundle.Module.Discovery
import LuaBundle.Proofs.Path.Relative

namespace LuaBundle

variable {root path : Path} {extension : String}

-- Whether an id looks like an absolute path.
def ModuleId.IsRooted (id : ModuleId) : Prop :=
  id.text.toList.head? = some '/'

theorem ModuleId.isRooted_slashed (h : path.isAbsolute) : ModuleId.IsRooted ⟨path.slashed⟩ := by
  cases hs : path.bytes with
  | nil => simp [Path.isAbsolute, hs] at h
  | cons c s =>
    obtain rfl : c = Path.slash := by simpa [Path.isAbsolute, hs] using h
    have htext : path.text.toList = '/' :: Text.decodeLossy s := by
      rw [OsString.text, String.toList_ofList, hs]
      rw [Text.decodeLossy_cons, Text.Utf8.next_ascii (by decide)]
      rfl
    simp [IsRooted, Path.slashed, htext]

-- What a file would like to be called is a way from the root, never an absolute path.
theorem ModuleId.not_isRooted_of_mem_wishes (hroot : root.isAbsolute) (hp : path.Plain)
    {id : ModuleId} (h : id ∈ wishes root extension path) : ¬ id.IsRooted := by
  have hrelative := Path.head?_relativeTo hroot hp
  simp only [wishes, List.mem_cons, List.not_mem_nil, or_false] at h
  rcases h with rfl | rfl
  case inr => exact hrelative
  case inl =>
    unfold IsRooted wishes.short
    dsimp only
    split
    case isFalse => simpa using hrelative
    case isTrue =>
      rw [String.toList_ofList, List.head?_take]
      split
      case isTrue => simp
      case isFalse => exact hrelative

-- The shorter wish is the longer one, or the longer one has the ending behind it.
theorem ModuleId.wishes.short_cases (extension : String) (relative : List Char) :
    short extension relative = String.ofList relative ∨
      relative = (short extension relative).toList ++ ('.' :: extension.toList) := by
  unfold short
  dsimp only
  split
  case isFalse => exact .inl rfl
  case isTrue h =>
    simp only [Bool.and_eq_true, List.isSuffixOf_iff_suffix] at h
    obtain ⟨stem, rfl⟩ := h.1.1
    exact .inr (by simp)

namespace Findings

-- Findings of different files.
def Separate (found : Findings) : Prop :=
  found.Pairwise fun f g => ¬ f.2 ≈ g.2

theorem Separate.eq_of_equiv {found : Findings} (h : found.Separate) {f g : ModuleId × Path}
    (hf : f ∈ found) (hg : g ∈ found) (he : f.2 ≈ g.2) : f = g := by
  by_contra hne
  have : Std.Symm fun f g : ModuleId × Path => ¬ f.2 ≈ g.2 := ⟨fun _ _ hfg hgf => hfg hgf.symm⟩
  exact h.forall hf hg hne he

-- Findings of different files in which only whole paths are the id of more than one file.
structure Apart (found : Findings) : Prop where
  paths : found.Pairwise fun f g => ¬ f.2 ≈ g.2
  rooted : ∀ f ∈ found, f.1.IsRooted → f.1.text = f.2.slashed
  shared : found.Pairwise fun f g => f.1 = g.1 → f.1.IsRooted

-- Findings in which ids and files belong together one to one.
structure OneToOne (found : Findings) : Prop extends Apart found where
  ids : (found.map Prod.fst).Nodup

variable {found : Findings} {id : ModuleId}

theorem id?_eq_none_iff : found.id? path = none ↔ ∀ f ∈ found, ¬ f.2 ≈ path := by
  simp [id?]

theorem mem_of_id?_eq_some (h : found.id? path = some id) : ∃ q, (id, q) ∈ found ∧ q ≈ path := by
  obtain ⟨⟨id', q⟩, hf, rfl⟩ := Option.map_eq_some_iff.mp h
  exact ⟨q, List.mem_of_find?_eq_some hf, by simpa using List.find?_some hf⟩

theorem not_mem_of_isFree (hnew : found.id? path = none) (h : found.isFree path id) :
    id ∉ found.map Prod.fst := by
  intro hmem
  obtain ⟨f, hf, rfl⟩ := List.mem_map.mp hmem
  cases ho : found.find? (·.1 = f.1) with
  | none => simpa using List.find?_eq_none.mp ho f hf
  | some owner =>
    simp only [isFree, owner?, ho, Option.map_some, Option.all_some, decide_eq_true_eq] at h
    exact id?_eq_none_iff.mp hnew owner (List.mem_of_find?_eq_some ho) h

theorem newId_cases (found : Findings) (root : Path) (extension : String) (path : Path) :
    (found.newId root extension path ∈ ModuleId.wishes root extension path ∧
      found.isFree path (found.newId root extension path)) ∨
    found.newId root extension path = ⟨path.slashed⟩ := by
  unfold newId
  cases hw : (ModuleId.wishes root extension path).find? (found.isFree path) with
  | none => exact .inr rfl
  | some id => exact .inl ⟨List.mem_of_find?_eq_some hw, List.find?_some hw⟩

-- Findings that come about file by file, each with the id that it gets when it is new.
inductive Allotted (root : Path) (extension : String) : Findings → Prop
  | nil : Allotted root extension []
  | cons {found : Findings} {path : Path} (h : Allotted root extension found)
      (hnew : found.id? path = none) :
      Allotted root extension ((found.newId root extension path, path) :: found)

theorem Allotted.separate (h : Allotted root extension found) : found.Separate := by
  induction h with
  | nil => exact .nil
  | cons _ hnew ih =>
    exact .cons (fun f hf he => id?_eq_none_iff.mp hnew f hf (Setoid.symm he)) ih

-- A file that gets none of its wishes finds its way from the root taken by another file.
theorem exists_of_newId_not_mem
    (h : found.newId root extension path ∉ ModuleId.wishes root extension path) :
    ∃ f ∈ found, f.1 = ⟨path.relativeTo root⟩ ∧ ¬ f.2 ≈ path := by
  by_contra hn
  have hfree : found.isFree path ⟨path.relativeTo root⟩ := by
    unfold isFree owner?
    cases ho : found.find? (·.1 = ⟨path.relativeTo root⟩) with
    | none => rfl
    | some f =>
      have hid : f.1 = ⟨path.relativeTo root⟩ := by simpa using List.find?_some ho
      have hpath : f.2 ≈ path := by
        by_contra hne
        exact hn ⟨f, List.mem_of_find?_eq_some ho, hid, hne⟩
      simpa using hpath
  refine h ?_
  unfold newId
  cases hw : (ModuleId.wishes root extension path).find? (found.isFree path) with
  | none => exact absurd hfree (List.find?_eq_none.mp hw _ (by simp [ModuleId.wishes]))
  | some id => exact List.mem_of_find?_eq_some hw

theorem Allotted.id_cases (h : Allotted root extension found) :
    ∀ f ∈ found, f.1 ∈ ModuleId.wishes root extension f.2 ∨ f.1 = ⟨f.2.slashed⟩ := by
  induction h with
  | nil => simp
  | @cons found path _ _ ih =>
    exact List.forall_mem_cons.mpr ⟨(newId_cases found root extension path).imp_left And.left, ih⟩

-- Where no file would like to be called as another one is by its way from the root, each file is
-- called as it would like to.
theorem Allotted.mem_wishes (h : Allotted root extension found)
    (hn : ∀ f ∈ found, ∀ f' ∈ found, ¬ f.2 ≈ f'.2 →
      ⟨f'.2.relativeTo root⟩ ∉ ModuleId.wishes root extension f.2) :
    ∀ f ∈ found, f.1 ∈ ModuleId.wishes root extension f.2 := by
  induction h with
  | nil => simp
  | @cons found path _ _ ih =>
    have ih := ih fun f hf f' hf' => hn f (.tail _ hf) f' (.tail _ hf')
    refine List.forall_mem_cons.mpr ⟨?_, ih⟩
    by_contra hw
    obtain ⟨f, hf, hid, hne⟩ := exists_of_newId_not_mem hw
    exact hn f (.tail _ hf) _ List.mem_cons_self hne (hid ▸ ih f hf)

-- A wish that is granted is free, and a whole path is the only id that may be taken before.
theorem Apart.cons (h : found.Apart) (hroot : root.isAbsolute) (hp : path.Plain)
    (hnew : found.id? path = none) :
    Apart ((found.newId root extension path, path) :: found) where
  paths := List.pairwise_cons.mpr
    ⟨fun f hf hq => id?_eq_none_iff.mp hnew f hf (Setoid.symm hq), h.paths⟩
  rooted := by
    refine List.forall_mem_cons.mpr ⟨fun hr => ?_, h.rooted⟩
    rcases newId_cases found root extension path with ⟨hw, -⟩ | he
    case inl => exact absurd hr (ModuleId.not_isRooted_of_mem_wishes hroot hp hw)
    case inr => exact congrArg ModuleId.text he
  shared := by
    refine List.pairwise_cons.mpr ⟨fun f hf he => ?_, h.shared⟩
    rcases newId_cases found root extension path with ⟨-, hfree⟩ | hw
    case inl => exact absurd (List.mem_map.mpr ⟨f, hf, he.symm⟩) (not_mem_of_isFree hnew hfree)
    case inr => exact hw ▸ ModuleId.isRooted_slashed hp.absolute

theorem Apart.eq_of_path_eq (h : found.Apart) {f g : ModuleId × Path} (hf : f ∈ found)
    (hg : g ∈ found) (he : f.2 = g.2) : f = g :=
  Separate.eq_of_equiv h.paths hf hg (he ▸ Setoid.refl f.2)

-- Two files share an id just where it is the whole path of each of them.
theorem Apart.id_eq_iff (h : found.Apart) {f g : ModuleId × Path} (hf : f ∈ found)
    (hg : g ∈ found) :
    f.1 = g.1 ↔ f = g ∨
      f.1.text = f.2.slashed ∧ g.1.text = g.2.slashed ∧ f.2.slashed = g.2.slashed := by
  constructor
  case mp =>
    intro he
    refine or_iff_not_imp_left.mpr fun hne => ?_
    have : Std.Symm fun f g : ModuleId × Path => f.1 = g.1 → f.1.IsRooted :=
      ⟨fun f g hfg he => he ▸ hfg he.symm⟩
    have hr := h.shared.forall hf hg hne he
    have hf := h.rooted f hf hr
    have hg := h.rooted g hg (he ▸ hr)
    exact ⟨hf, hg, hf.symm.trans (he ▸ hg)⟩
  case mpr =>
    rintro (rfl | ⟨hf, hg, hs⟩)
    · rfl
    · exact congrArg ModuleId.mk (hf.trans (hs.trans hg.symm))

theorem Apart.oneToOne (h : found.Apart)
    (hs : ∀ f ∈ found, ∀ g ∈ found, f.2.slashed = g.2.slashed → f.2 = g.2) : found.OneToOne := by
  refine { h with ids := List.pairwise_map.mpr (h.paths.imp_of_mem ?_) }
  intro f g hf hg hne he
  rcases (h.id_eq_iff hf hg).mp he with rfl | ⟨-, -, he⟩
  case inl => exact hne (Setoid.refl _)
  case inr => exact hne (hs f hf g hg he ▸ Setoid.refl _)

theorem OneToOne.of_suffix {found' : Findings} (h : found'.OneToOne) (hs : found <:+ found') :
    found.OneToOne where
  paths := h.paths.sublist hs.sublist
  rooted f hf := h.rooted f (hs.subset hf)
  shared := h.shared.sublist hs.sublist
  ids := h.ids.sublist (hs.sublist.map _)

end Findings
end LuaBundle

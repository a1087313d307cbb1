import LuaBundle.Proofs.Bundle.Copied
import LuaBundle.Proofs.File.Mount
import LuaBundle.Proofs.Module.Locate
import LuaBundle.Proofs.Module.Needed

namespace LuaBundle

-- The options that are given by default, with names that the host provides.
def Options.hosting (names : List String) : Options :=
  { Options.default with externals := names }

namespace Listing

open LuaBundle.Path

variable {l : Listing} {p q way entry : List OsString} {hosted : List String} {reference : String}

-- Every static call that is not left to the host means files beside its own file or below.
def Descends (l : Listing) (options : Options) : Prop :=
  ∀ f ∈ l.files, ∀ requires, Requires.of f.2 = .ok requires → ∀ call ∈ requires.calls,
    options.isExternal call.literal = false →
      (ofString call.literal).isAbsolute = false ∧ .up ∉ (ofString call.literal).components

instance (l : Listing) (options : Options) : Decidable (l.Descends options) :=
  decidable_of_iff
    (∀ f ∈ l.files, ∀ requires ∈ (Requires.of f.2).toOption, ∀ call ∈ requires.calls,
      options.isExternal call.literal = false →
        (ofString call.literal).isAbsolute = false ∧ .up ∉ (ofString call.literal).components)
    (forall₂_congr fun f _ => by cases Requires.of f.2 <;> simp [Except.toOption])

-- What a file that is referred to from another one is called: this depends on no directory.
def target? (l : Listing) (way : List OsString) (reference : String) : Option (List OsString) :=
  if reference.isEmpty then none
  else
    ((Locator.candidates "lua" reference .empty).map fun rest => way.dropLast ++ rest.names).find?
      fun way => (l.text? way).isSome

def builder (l : Listing) (dir entry : List OsString) (hosted : List String) : Builder :=
  .of (l.mount (ofNames dir)).fileSystem (.hosting hosted) (ofNames (dir ++ entry))

theorem options_builder (l : Listing) (dir entry : List OsString) (hosted : List String) :
    (l.builder dir entry hosted).options = .hosting hosted :=
  rfl

theorem isWay_of_text? {text : String} (h : l.text? way = some text) :
    way ≠ [] ∧ ∀ n ∈ way, IsName n :=
  l.isWay _ (mem_files_of_text? h)

theorem Descends.of_call {options : Options} {text : String} {requires : Requires}
    {call : StaticCall} (hd : l.Descends options) (ht : l.text? way = some text)
    (hscan : Requires.of text = .ok requires) (hcall : call ∈ requires.calls)
    (hexternal : options.isExternal call.literal = false) : (ofString call.literal).Descends :=
  have ⟨ha, hup⟩ := hd _ (mem_files_of_text? ht) requires hscan call hcall hexternal
  descends_of_components ha hup

theorem isWay_of_target? {target : List OsString} (h : l.target? way reference = some target) :
    ∃ text, l.text? target = some text := by
  unfold target? at h
  split at h
  case isTrue => cases h
  case isFalse => exact Option.isSome_iff_exists.mp (by simpa using List.find?_some h)

theorem prefix_of_target? {target : List OsString} (h : l.target? way reference = some target) :
    way.dropLast <+: target := by
  unfold target? at h
  split at h
  case isTrue => cases h
  case isFalse =>
    obtain ⟨rest, -, rfl⟩ := List.mem_map.mp (List.mem_of_find?_eq_some h)
    exact List.prefix_append _ _

theorem isName_append (hp : ∀ n ∈ p, IsName n) (hw : ∀ n ∈ way, IsName n) :
    ∀ n ∈ p ++ way, IsName n := fun n hn =>
  (List.mem_append.mp hn).elim (hp n) (hw n)

theorem parent_ofNames_append (hp : ∀ n ∈ p, IsName n) (hw : ∀ n ∈ way, IsName n)
    (hne : way ≠ []) : (ofNames (p ++ way)).parent = ofNames (p ++ way.dropLast) := by
  obtain ⟨front, n, rfl⟩ : ∃ front n, way = front ++ [n] :=
    ⟨_, _, (List.dropLast_append_getLast hne).symm⟩
  rw [List.dropLast_concat, ← List.append_assoc]
  refine parent_ofNames ?_
  rw [List.append_assoc]
  exact isName_append hp hw

section Below

variable {dir : List OsString} {rest : Path}

-- A path that leads down lies as far below a directory as it leads.
theorem clean_join_ofNames (hp : ∀ n ∈ p, IsName n) (hdir : ∀ n ∈ dir, IsName n)
    (hd : rest.Descends) :
    ((ofNames (p ++ dir)).join rest).clean = ofNames (p ++ (dir ++ rest.names)) := by
  rw [hd.clean_join (isName_append hp hdir), List.append_assoc]

theorem content?_mount_join (hp : ∀ n ∈ p, IsName n) (hdir : ∀ n ∈ dir, IsName n)
    (hd : rest.Descends) :
    (l.mount (ofNames p)).content? ((ofNames (p ++ dir)).join rest) =
      l.text? (dir ++ rest.names) :=
  content?_mount hp (isName_append hdir (isName_of_mem_names hd.noUp))
    (clean_join_ofNames hp hdir hd)

theorem canonicalize_mount_join (hp : ∀ n ∈ p, IsName n) (hdir : ∀ n ∈ dir, IsName n)
    (hd : rest.Descends) (h : (l.text? (dir ++ rest.names)).isSome) :
    (l.mount (ofNames p)).canonicalize ((ofNames (p ++ dir)).join rest) =
      .ok (ofNames (p ++ (dir ++ rest.names))) := by
  have hfile : (l.mount (ofNames p)).isFile ((ofNames (p ++ dir)).join rest) :=
    (congrArg Option.isSome (content?_mount_join hp hdir hd)).trans h
  rw [Memory.canonicalize, if_pos hfile, resolve_mount l hp, clean_join_ofNames hp hdir hd]

-- Which of some paths is the first that names a file does not depend on what lies above.
theorem find?_isFile_mount (hp : ∀ n ∈ p, IsName n) (hdir : ∀ n ∈ dir, IsName n)
    {candidates : List Path} (hd : ∀ rest ∈ candidates, rest.Descends) :
    candidates.find? ((l.mount (ofNames p)).isFile ∘ (ofNames (p ++ dir)).join) =
      candidates.find? ((fun way => (l.text? way).isSome) ∘ fun rest => dir ++ rest.names) := by
  rw [← List.head?_filter, ← List.head?_filter]
  congr 1
  exact List.filter_congr fun rest hrest =>
    congrArg Option.isSome (content?_mount_join hp hdir (hd rest hrest))

end Below

theorem locate_mount (hp : ∀ n ∈ p, IsName n) (hw : ∀ n ∈ way, IsName n) (hne : way ≠ [])
    (hr : (ofString reference).Descends) :
    (l.builder p entry hosted).locator.locate reference (ofNames (p ++ way)) =
      match l.target? way reference with
      | none => .error (.unresolved reference (ofNames (p ++ way)))
      | some target => .ok (ofNames (p ++ target)) := by
  have hdir : ∀ n ∈ way.dropLast, IsName n := fun n hn => hw n (List.dropLast_subset way hn)
  unfold Locator.locate Locator.allCandidates target?
  by_cases he : reference.isEmpty
  case pos => simp only [he, if_true, List.find?_nil]
  case neg =>
    have hempty : (ofString reference).isEmpty = false := by
      simpa [isEmpty_ofString] using he
    have habsolute := isEmpty_eq_false_of_isAbsolute (isAbsolute_ofNames (p ++ way.dropLast))
    have descends : ∀ rest ∈ Locator.candidates "lua" reference .empty, rest.Descends := fun _ =>
      Locator.descends_of_mem_candidates hr hempty (by decide) (by decide)
    have hroots : (l.builder p entry hosted).locator.roots = [] := rfl
    have hcandidates :
        ((ofNames (p ++ way)).parent :: (l.builder p entry hosted).locator.roots).flatMap
          (Locator.candidates (l.builder p entry hosted).locator.extension reference) =
        (Locator.candidates "lua" reference .empty).map (ofNames (p ++ way.dropLast)).join := by
      rw [parent_ofNames_append hp hw hne, hroots, List.flatMap_singleton]
      exact Locator.candidates_eq_map habsolute hempty hr.relative
    have hfiles : (l.builder p entry hosted).locator.files =
        (l.mount (ofNames p)).fileSystem.toFileSystem := rfl
    have hfind : (Locator.candidates "lua" reference .empty).find?
          ((l.mount (ofNames p)).fileSystem.isFile ∘ (ofNames (p ++ way.dropLast)).join) =
        (Locator.candidates "lua" reference .empty).find?
          ((fun way => (l.text? way).isSome) ∘ fun rest => way.dropLast ++ rest.names) :=
      find?_isFile_mount hp hdir descends
    rw [if_neg he, if_neg he, hcandidates, hfiles, List.find?_map, List.find?_map, hfind]
    cases hf : (Locator.candidates "lua" reference .empty).find?
        ((fun way => (l.text? way).isSome) ∘ fun rest => way.dropLast ++ rest.names) with
    | none => rfl
    | some rest =>
      have htext : (l.text? (way.dropLast ++ rest.names)).isSome := by
        simpa using List.find?_some hf
      have hcanonical : (l.mount (ofNames p)).fileSystem.canonicalize
          ((ofNames (p ++ way.dropLast)).join rest) =
            .ok (ofNames (p ++ (way.dropLast ++ rest.names))) :=
        canonicalize_mount_join hp hdir (descends _ (List.mem_of_find?_eq_some hf)) htext
      simp only [Option.map_some, hcanonical, Except.mapError]

-- Paths that lie alike under two directories.
def Parallel (p q : List OsString) (x y : Path) : Prop :=
  ∃ way, way ≠ [] ∧ (∀ n ∈ way, IsName n) ∧ x = ofNames (p ++ way) ∧ y = ofNames (q ++ way)

-- Ids of such paths: a wish, which is the same for both, or the whole path of each.
inductive Called (p q : List OsString) : ModuleId → ModuleId → Prop
  | wish {id : ModuleId} (h : ¬ id.IsRooted) : Called p q id id
  | whole {x y : Path} (h : Parallel p q x y) : Called p q ⟨x.slashed⟩ ⟨y.slashed⟩

section Parallel

variable {x y x' y' : Path} {id id' other other' : ModuleId}

theorem Parallel.symm (h : Parallel p q x y) : Parallel q p y x :=
  have ⟨way, hne, hw, hx, hy⟩ := h
  ⟨way, hne, hw, hy, hx⟩

theorem Parallel.plain (h : Parallel p q x y) (hp : ∀ n ∈ p, IsName n) : x.Plain := by
  obtain ⟨way, -, hw, rfl, -⟩ := h
  exact plain_ofNames (isName_append hp hw)

theorem Parallel.eq_of_eq (h : Parallel p q x y) (h' : Parallel p q x' y') (hp : ∀ n ∈ p, IsName n)
    (he : x = x') : y = y' := by
  obtain ⟨way, -, hw, rfl, rfl⟩ := h
  obtain ⟨way', -, hw', rfl, rfl⟩ := h'
  have hway := (ofNames_inj (isName_append hp hw) (isName_append hp hw')).mp he
  rw [List.append_cancel_left hway]

theorem Parallel.equiv_iff (h : Parallel p q x y) (h' : Parallel p q x' y')
    (hp : ∀ n ∈ p, IsName n) (hq : ∀ n ∈ q, IsName n) : x ≈ x' ↔ y ≈ y' := by
  constructor
  case mp =>
    intro he
    exact h.eq_of_eq h' hp ((h.plain hp).eq_of_equiv (h'.plain hp) he) ▸ Setoid.refl y
  case mpr =>
    intro he
    exact h.symm.eq_of_eq h'.symm hq ((h.symm.plain hq).eq_of_equiv (h'.symm.plain hq) he) ▸
      Setoid.refl x

-- Two paths under a directory are the same up to backslashes just where their ways from there are.
theorem Parallel.slashed_eq (h : Parallel p q x y) (h' : Parallel p q x' y')
    (he : x.slashed = x'.slashed) : y.slashed = y'.slashed := by
  obtain ⟨way, hne, hw, rfl, rfl⟩ := h
  obtain ⟨way', hne', hw', rfl, rfl⟩ := h'
  have he := congrArg String.toList he
  simp only [slashed, String.toList_ofList, text_ofNames, List.map_append,
    intercalate_append_eq_flatMap '/' _ (mt List.map_eq_nil_iff.mp hne),
    intercalate_append_eq_flatMap '/' _ (mt List.map_eq_nil_iff.mp hne'), List.map_cons] at he ⊢
  rw [List.append_cancel_left (List.cons.inj he).2]

theorem Called.symm (h : Called p q id id') : Called q p id' id := by
  cases h with
  | wish h => exact .wish h
  | whole h => exact .whole h.symm

theorem Called.eq_of_eq (h : Called p q id id') (h' : Called p q other other')
    (hp : ∀ n ∈ p, IsName n) (he : id = other) : id' = other' := by
  cases h with
  | wish h =>
    cases h' with
    | wish => exact he
    | whole h' => exact absurd (he ▸ ModuleId.isRooted_slashed (h'.plain hp).absolute) h
  | whole h =>
    cases h' with
    | wish h' => exact absurd (he ▸ ModuleId.isRooted_slashed (h.plain hp).absolute) h'
    | whole h' => exact congrArg ModuleId.mk (h.slashed_eq h' (congrArg ModuleId.text he))

end Parallel

section Mirror

variable {id id' : ModuleId}

theorem root_builder (hp : ∀ n ∈ p, IsName n) (he : ∀ n ∈ entry, IsName n) (hne : entry ≠ []) :
    (l.builder p entry hosted).root = ofNames (p ++ entry.dropLast) :=
  parent_ofNames_append hp he hne

theorem read_mount (hp : ∀ n ∈ p, IsName n) (hw : ∀ n ∈ way, IsName n) {text : String} :
    (l.mount (ofNames p)).read (ofNames (p ++ way)) = .ok text ↔ l.text? way = some text := by
  have hcontent := content?_mount (l := l) hp hw (clean_ofNames (isName_append hp hw))
  rw [Memory.read, hcontent]
  cases l.text? way <;> simp

theorem mirrors (hp : ∀ n ∈ p, IsName n) (hq : ∀ n ∈ q, IsName n) (he : ∀ n ∈ entry, IsName n)
    (hne : entry ≠ []) (hd : l.Descends (.hosting hosted)) :
    (l.builder p entry hosted).Mirrors (l.builder q entry hosted) (Parallel p q) (Called p q) where
  paths h h' := h.equiv_iff h' hp hq
  ids h h' := ⟨h.eq_of_eq h' hp, h.symm.eq_of_eq h'.symm hq⟩
  wishes := by
    rintro _ _ ⟨way, -, hw, rfl, rfl⟩
    have hroot : ∀ n ∈ entry.dropLast, IsName n := fun n hn => he n (List.dropLast_subset entry hn)
    unfold ModuleId.wishes
    rw [root_builder hp he hne, root_builder hq he hne, relativeTo_append hp hroot hw,
      relativeTo_append hq hroot hw, options_builder, options_builder]
  wish h hid := by
    refine .wish (ModuleId.not_isRooted_of_mem_wishes ?_ (h.plain hp) hid)
    rw [root_builder hp he hne]
    exact isAbsolute_ofNames _
  whole h := .whole h
  calls := by
    rintro _ _ text requires ⟨way, hway, hw, rfl, rfl⟩ hread hscan
    have htext := (read_mount hp hw).mp hread
    refine ⟨text, requires, (read_mount hq hw).mpr htext, hscan, ?_⟩
    refine List.forall₂_same.mpr fun call hcall => ⟨?_, fun hexternal x hlocate => ?_⟩
    case refine_1 => rw [options_builder, options_builder]
    have hr := hd.of_call htext hscan hcall hexternal
    rw [locate_mount hp hw hway hr] at hlocate
    rw [locate_mount hq hw hway hr]
    cases ht : l.target? way call.literal with
    | none => simp [ht] at hlocate
    | some target =>
      obtain rfl : ofNames (p ++ target) = x := by simpa [ht] using hlocate
      obtain ⟨_, htext⟩ := isWay_of_target? ht
      obtain ⟨hne, hnames⟩ := isWay_of_text? htext
      exact ⟨_, rfl, target, hne, hnames, rfl, rfl⟩

theorem Called.eq_or (h : Called p q id id') (hp : ∀ n ∈ p, IsName n) (hq : ∀ n ∈ q, IsName n) :
    id = id' ∨ id.IsRooted ∧ id'.IsRooted := by
  cases h with
  | wish => exact .inl rfl
  | whole h =>
    exact .inr ⟨ModuleId.isRooted_slashed (h.plain hp).absolute,
      ModuleId.isRooted_slashed (h.symm.plain hq).absolute⟩

end Mirror

section Build

variable {g g' : Graph}

-- The graph of an entry under a directory.
def graph (l : Listing) (dir : Path) (hosted : List String) (entry : List OsString) :
    Outcome Graph :=
  buildGraph (l.mount dir).fileSystem (.hosting hosted) (dir.join (path entry))

theorem canonicalize_mount (hp : ∀ n ∈ p, IsName n) (he : entry ∈ l.files.map Prod.fst) :
    (l.mount (ofNames p)).canonicalize ((ofNames p).join (path entry)) =
      .ok (ofNames (p ++ entry)) := by
  obtain ⟨text, htext⟩ := Option.isSome_iff_exists.mp (isSome_text? he)
  have hw := (isWay_of_text? htext).2
  have hclean := clean_join_path hp hw
  have hfile : (l.mount (ofNames p)).isFile ((ofNames p).join (path entry)) := by
    rw [Memory.isFile, content?_mount hp hw hclean, htext, Option.isSome_some]
  rw [Memory.canonicalize, if_pos hfile, resolve_mount l hp, hclean]

theorem copied (hp : ∀ n ∈ p, IsName n) (hq : ∀ n ∈ q, IsName n)
    (he : entry ∈ l.files.map Prod.fst) (hd : l.Descends (.hosting hosted))
    (h : (l.graph (ofNames p) hosted entry).result = .ok g) :
    ∃ g', (l.graph (ofNames q) hosted entry).result = .ok g' ∧
      Builder.Copied (Parallel p q) (Called p q) g g' := by
  obtain ⟨f, hf, rfl⟩ := List.mem_map.mp he
  obtain ⟨hne, hw⟩ := l.isWay f hf
  exact buildGraph_copied (canonicalize_mount hp he) (canonicalize_mount hq he)
    ⟨f.1, hne, hw, rfl, rfl⟩ (mirrors hp hq hw hne hd) h

-- Files that lie alike have one text.
theorem source_eq {m m' : Module} (hp : ∀ n ∈ p, IsName n) (hq : ∀ n ∈ q, IsName n)
    (h : (l.graph (ofNames p) hosted entry).result = .ok g)
    (h' : (l.graph (ofNames q) hosted entry).result = .ok g') (hm : m ∈ g.modules)
    (hm' : m' ∈ g'.modules) (hpath : Parallel p q m.path m'.path) : m.source = m'.source := by
  obtain ⟨way, -, hw, hpath, hpath'⟩ := hpath
  have hread : (l.mount (ofNames p)).read m.path = .ok m.source := Builder.read_of_buildGraph h m hm
  have hread' : (l.mount (ofNames q)).read m'.path = .ok m'.source :=
    Builder.read_of_buildGraph h' m' hm'
  rw [hpath, read_mount hp hw] at hread
  rw [hpath', read_mount hq hw] at hread'
  exact Option.some.inj (hread.symm.trans hread')

theorem copied_eq (hp : ∀ n ∈ p, IsName n) (hq : ∀ n ∈ q, IsName n)
    (h : (l.graph (ofNames p) hosted entry).result = .ok g)
    (hc : Builder.Copied (Parallel p q) (Called p q) g g')
    (hid : ∀ m ∈ g.modules, ¬ m.id.IsRooted) : Builder.Copied (Parallel p q) Eq g g' := by
  obtain ⟨hhead, htarget⟩ := Builder.closed_of_buildGraph h
  have eq {id id' : ModuleId} (hc : Called p q id id') (hmem : id ∈ g.ids) : id = id' := by
    obtain ⟨m, hm, rfl⟩ := List.mem_map.mp hmem
    exact (hc.eq_or hp hq).resolve_right fun hr => hid m hm hr.1
  refine ⟨eq hc.entry (List.mem_of_mem_head? hhead), ?_⟩
  refine (forall₂_and_mem hc.modules).imp fun m m' ⟨hm, _, hc⟩ => ?_
  refine ⟨eq hc.id (List.mem_map_of_mem hm), hc.path, ?_⟩
  exact (forall₂_and_mem hc.targets).imp fun r _ ⟨hr, _, hc⟩ => eq hc (htarget m hm r hr)

theorem emit_eq (hp : ∀ n ∈ p, IsName n) (hq : ∀ n ∈ q, IsName n)
    (h : (l.graph (ofNames p) hosted entry).result = .ok g)
    (h' : (l.graph (ofNames q) hosted entry).result = .ok g')
    (hc : Builder.Copied (Parallel p q) (Called p q) g g')
    (hid : ∀ m ∈ g.modules, ¬ m.id.IsRooted) : Bundle.emit g = Bundle.emit g' := by
  refine Bundle.emit_eq_of_copied (copied_eq hp hq h hc hid) (Builder.closed_of_buildGraph h).1
    (fun m hm m' hm' hc => Bundle.body_eq_of_source_eq h h' hm hm'
      (source_eq hp hq h h' hm hm' hc.path) (Bundle.map_target_eq hc)) ?_
  rintro _ _ _ _ ⟨way, hne, hw, rfl, rfl⟩ ⟨way', -, hw', rfl, rfl⟩
  have hfront : ∀ n ∈ way.dropLast, IsName n := fun n hn => hw n (List.dropLast_subset way hn)
  rw [parent_ofNames_append hp hw hne, parent_ofNames_append hq hw hne,
    relativeTo_append hp hfront hw', relativeTo_append hq hfront hw']

-- The files found under a directory got their ids one by one.
theorem allotted (hp : ∀ n ∈ p, IsName n) (he : entry ∈ l.files.map Prod.fst)
    (h : (l.graph (ofNames p) hosted entry).result = .ok g) :
    (∀ n ∈ p ++ entry.dropLast, IsName n) ∧ ∃ found : Findings,
      found.Allotted (ofNames (p ++ entry.dropLast)) "lua" ∧
      (∀ f ∈ found, (l.builder p entry hosted).Needed (ofNames (p ++ entry)) f.2) ∧
      ∀ m ∈ g.modules, m.finding ∈ found := by
  obtain ⟨start, hstart, hfound⟩ := Builder.allotted_of_buildGraph h
  obtain rfl : start = ofNames (p ++ entry) :=
    Except.ok.inj (hstart.symm.trans (canonicalize_mount hp he))
  obtain ⟨f, hf, rfl⟩ := List.mem_map.mp he
  obtain ⟨hne, hw⟩ := l.isWay f hf
  rw [parent_ofNames_append hp hw hne] at hfound
  exact ⟨isName_append hp fun n hn => hw n (List.dropLast_subset f.1 hn), hfound⟩

theorem text_of_isRooted {m : Module} (hp : ∀ n ∈ p, IsName n) (he : entry ∈ l.files.map Prod.fst)
    (h : (l.graph (ofNames p) hosted entry).result = .ok g) (hm : m ∈ g.modules)
    (hplain : m.path.Plain) (hr : m.id.IsRooted) : m.id.text = m.path.slashed := by
  obtain ⟨-, found, hallotted, -, hfound⟩ := allotted hp he h
  rcases hallotted.id_cases _ (hfound m hm) with hmem | hid
  case inl =>
    exact absurd hr (ModuleId.not_isRooted_of_mem_wishes (isAbsolute_ofNames _) hplain hmem)
  case inr => exact congrArg ModuleId.text hid

end Build

end Listing
end LuaBundle

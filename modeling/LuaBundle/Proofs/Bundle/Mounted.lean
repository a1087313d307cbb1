import LuaBundle.Proofs.Module.Mounted

namespace LuaBundle.Listing

open LuaBundle.Path

variable {l : Listing} {p q way entry : List OsString} {hosted : List String}

section Clear

variable {x : Path} {g : Graph}

-- Files of which none stands where another has a directory, and none reads like another, be it with
-- the ending behind it.
structure Clear (l : Listing) : Prop where
  flat : ∀ f ∈ l.files, ∀ f' ∈ l.files, f.1 <+: f'.1 → f.1 = f'.1
  legible : ∀ f ∈ l.files, ∀ f' ∈ l.files, (path f'.1).text = (path f.1).text → f'.1 = f.1
  apart : ∀ f ∈ l.files, ∀ f' ∈ l.files, (path f'.1).text ≠ (path f.1).text ++ ".lua"

theorem text_path (way : List OsString) :
    (path way).text = String.intercalate "/" (way.map (·.text)) := by
  refine String.toList_injective ?_
  rw [OsString.text, String.toList_ofList, bytes_path, Text.decodeLossy_intercalate (by decide),
    String.toList_intercalate, List.map_map, List.map_map]
  simp only [Function.comp_def, OsString.text, String.toList_ofList]
  rfl

theorem text_path_append (front : List OsString) (hne : way ≠ []) :
    (path (front ++ way)).text.toList =
      (front.map (·.text.toList)).flatMap (· ++ ['/']) ++ (path way).text.toList := by
  simp only [text_path, String.toList_intercalate, List.map_append, List.map_map]
  exact intercalate_append_eq_flatMap '/' _ (mt List.map_eq_nil_iff.mp hne)

-- A file of the listing that lies in a directory or below.
def Beneath (l : Listing) (p front : List OsString) (x : Path) : Prop :=
  ∃ way, way ≠ [] ∧ (l.text? (front ++ way)).isSome ∧ x = ofNames (p ++ (front ++ way))

-- No reference leads out of the directory of the entry.
theorem beneath_of_needed (hp : ∀ n ∈ p, IsName n) (hc : l.Clear)
    (he : entry ∈ l.files.map Prod.fst) (hd : l.Descends (.hosting hosted))
    (h : (l.builder p entry hosted).Needed (ofNames (p ++ entry)) x) :
    l.Beneath p entry.dropLast x := by
  obtain ⟨f, hf, rfl⟩ := List.mem_map.mp he
  have hne := (l.isWay f hf).1
  induction h with
  | start =>
    refine ⟨[f.1.getLast hne], List.cons_ne_nil _ _, ?_, ?_⟩
    all_goals rw [List.dropLast_append_getLast]
    exact l.isSome_text? he
  | @call _ x text requires call _ hread hscan hcall hexternal hlocate ih =>
    obtain ⟨way, hway, htext, rfl⟩ := ih
    obtain ⟨text', htext⟩ := Option.isSome_iff_exists.mp htext
    obtain ⟨hfull, hw⟩ := isWay_of_text? htext
    have hread : (l.mount (ofNames p)).read (ofNames (p ++ (f.1.dropLast ++ way))) = .ok text :=
      hread
    obtain rfl : text' = text := Option.some.inj (htext.symm.trans ((read_mount hp hw).mp hread))
    have hr := hd.of_call htext hscan hcall hexternal
    rw [locate_mount hp hw hfull hr] at hlocate
    cases ht : l.target? (f.1.dropLast ++ way) call.literal with
    | none => simp [ht] at hlocate
    | some target =>
      obtain rfl : ofNames (p ++ target) = x := by simpa [ht] using hlocate
      obtain ⟨text, htarget⟩ := isWay_of_target? ht
      obtain ⟨more, rfl⟩ := prefix_of_target? ht
      rw [List.dropLast_append_of_ne_nil hway, List.append_assoc] at htarget ⊢
      refine ⟨way.dropLast ++ more, fun hnil => ?_, htarget ▸ rfl, rfl⟩
      -- else the directory of the entry is a file itself
      rw [hnil, List.append_nil] at htarget
      have heq := hc.flat _ (mem_files_of_text? htarget) f hf (List.dropLast_prefix f.1)
      have hlength := congrArg List.length heq
      have hpos := List.length_pos_iff.mpr hne
      rw [List.length_dropLast] at hlength
      omega

-- No file would like to be called by the way to another file.
theorem Clear.eq_of_mem_wishes {front way' : List OsString} (hc : l.Clear)
    (hp : ∀ n ∈ p ++ front, IsName n) (hne : way ≠ []) (hne' : way' ≠ [])
    (ht : (l.text? (front ++ way)).isSome) (ht' : (l.text? (front ++ way')).isSome)
    (h : ⟨(ofNames (p ++ (front ++ way'))).relativeTo (ofNames (p ++ front))⟩ ∈
      ModuleId.wishes (ofNames (p ++ front)) "lua" (ofNames (p ++ (front ++ way)))) :
    way' = way := by
  obtain ⟨text, htext⟩ := Option.isSome_iff_exists.mp ht
  obtain ⟨text', htext'⟩ := Option.isSome_iff_exists.mp ht'
  have hw : ∀ n ∈ way, IsName n := fun n hn =>
    (isWay_of_text? htext).2 n (List.mem_append_right _ hn)
  have hw' : ∀ n ∈ way', IsName n := fun n hn =>
    (isWay_of_text? htext').2 n (List.mem_append_right _ hn)
  rw [ModuleId.wishes, ← List.append_assoc, ← List.append_assoc, relativeTo_ofNames hp hw,
    relativeTo_ofNames hp hw', ← text_path, ← text_path, List.mem_pair, ModuleId.mk.injEq,
    ModuleId.mk.injEq] at h
  have same (he : (path way').text = (path way).text) : way' = way := by
    have hfull : (path (front ++ way')).text = (path (front ++ way)).text := by
      refine String.toList_injective ?_
      rw [text_path_append front hne', text_path_append front hne, he]
    exact List.append_cancel_left
      (hc.legible _ (mem_files_of_text? htext) _ (mem_files_of_text? htext') hfull)
  rcases h with hshort | hsame
  case inr => exact same hsame
  case inl =>
    rcases ModuleId.wishes.short_cases "lua" (path way).text.toList with hs | hs
    case inl =>
      exact same (hshort.trans (hs.trans String.ofList_toList))
    case inr =>
      have hlonger : (path (front ++ way)).text = (path (front ++ way')).text ++ ".lua" := by
        refine String.toList_injective ?_
        rw [String.toList_append, text_path_append front hne, text_path_append front hne', hs]
        exact hshort ▸ (List.append_assoc ..).symm
      exact absurd hlonger
        (hc.apart _ (mem_files_of_text? htext') _ (mem_files_of_text? htext))

-- Over such files each module is called by its way from the directory of the entry.
theorem not_isRooted (hp : ∀ n ∈ p, IsName n) (hc : l.Clear) (he : entry ∈ l.files.map Prod.fst)
    (hd : l.Descends (.hosting hosted)) (h : (l.graph (ofNames p) hosted entry).result = .ok g) :
    ∀ m ∈ g.modules, ¬ m.id.IsRooted := by
  obtain ⟨hfront, found, hallotted, hneeded, hfound⟩ := allotted hp he h
  have hbeneath : ∀ f ∈ found, l.Beneath p entry.dropLast f.2 := fun f hf =>
    beneath_of_needed hp hc he hd (hneeded f hf)
  have hwishes := hallotted.mem_wishes fun f hf f' hf' hne hmem => by
    obtain ⟨way, hway, htext, hpath⟩ := hbeneath f hf
    obtain ⟨way', hway', htext', hpath'⟩ := hbeneath f' hf'
    rw [hpath, hpath'] at hmem
    obtain rfl := hc.eq_of_mem_wishes hfront hway hway' htext htext' hmem
    exact hne (hpath.trans hpath'.symm ▸ Setoid.refl f.2)
  intro m hm
  obtain ⟨way, -, htext, hpath⟩ := hbeneath _ (hfound m hm)
  obtain ⟨text, htext⟩ := Option.isSome_iff_exists.mp htext
  have hplain : m.finding.2.Plain :=
    hpath ▸ plain_ofNames (isName_append hp (isWay_of_text? htext).2)
  exact ModuleId.not_isRooted_of_mem_wishes (isAbsolute_ofNames _) hplain
    (hwishes _ (hfound m hm))

end Clear

section Bundle

variable {P Q : Path} {g g' : Graph} {text : String}

def bundle (l : Listing) (dir : Path) (hosted : List String) (entry : List OsString) :
    Outcome String :=
  LuaBundle.bundle (l.mount dir).fileSystem (.hosting hosted) (dir.join (path entry))

theorem result_bundle (l : Listing) (dir : Path) (hosted : List String) (entry : List OsString) :
    (l.bundle dir hosted entry).result = (l.graph dir hosted entry).result.map Bundle.emit :=
  rfl

theorem exists_bundle_iff :
    (∃ text, (l.bundle P hosted entry).result = .ok text) ↔
      ∃ g, (l.graph P hosted entry).result = .ok g := by
  rw [result_bundle]
  cases (l.graph P hosted entry).result <;> simp [Except.map]

-- Modules of one file of a listing under two directories: only where no other name is left do
-- their ids tell where they are.
structure Counterparts (l : Listing) (P Q : Path) (m m' : Module) : Prop where
  source : m.source = m'.source
  path : ∃ way ∈ l.files.map Prod.fst,
    m.path = (P.join (path way)).clean ∧ m'.path = (Q.join (Listing.path way)).clean
  id : m.id = m'.id ∨ m.id.text = m.path.slashed ∧ m'.id.text = m'.path.slashed

theorem counterparts {m m' : Module} (hp : ∀ n ∈ p, IsName n) (hq : ∀ n ∈ q, IsName n)
    (he : entry ∈ l.files.map Prod.fst) (h : (l.graph (ofNames p) hosted entry).result = .ok g)
    (h' : (l.graph (ofNames q) hosted entry).result = .ok g') (hm : m ∈ g.modules)
    (hm' : m' ∈ g'.modules) (hc : Builder.Copies (Parallel p q) (Called p q) m m') :
    l.Counterparts (ofNames p) (ofNames q) m m' where
  source := source_eq hp hq h h' hm hm' hc.path
  path := by
    obtain ⟨way, -, hw, hpath, hpath'⟩ := hc.path
    have hread : (l.mount (ofNames p)).read m.path = .ok m.source :=
      Builder.read_of_buildGraph h m hm
    rw [hpath, read_mount hp hw] at hread
    refine ⟨way, List.mem_map_of_mem (mem_files_of_text? hread), ?_⟩
    rw [clean_join_path hp hw, clean_join_path hq hw]
    exact ⟨hpath, hpath'⟩
  id := (hc.id.eq_or hp hq).imp_right fun ⟨hr, hr'⟩ =>
    ⟨text_of_isRooted hp he h hm (hc.path.plain hp) hr,
      text_of_isRooted hq he h' hm' (hc.path.symm.plain hq) hr'⟩

theorem bundle_of_clear (hp : ∀ n ∈ p, IsName n) (hq : ∀ n ∈ q, IsName n) (hc : l.Clear)
    (he : entry ∈ l.files.map Prod.fst) (hd : l.Descends (.hosting hosted))
    (h : (l.bundle (ofNames p) hosted entry).result = .ok text) :
    (l.bundle (ofNames q) hosted entry).result = .ok text := by
  rw [result_bundle] at h ⊢
  obtain ⟨g, hg, rfl⟩ := exists_of_map_eq_ok h
  obtain ⟨g', hg', hcopied⟩ := copied hp hq he hd hg
  rw [hg', Except.map, emit_eq hp hq hg hg' hcopied (not_isRooted hp hc he hd hg)]

-- A tree bundles under one directory just where it does under another. The same files become
-- modules, in the same order, and the bundles are the same where no id is a whole path. No id is
-- where no file stands in the way of another.
theorem bundle_mount (hP : P.Plain) (hQ : Q.Plain) (he : entry ∈ l.files.map Prod.fst)
    (hd : l.Descends (.hosting hosted)) :
    ((∃ text, (l.bundle P hosted entry).result = .ok text) ↔
      ∃ text, (l.bundle Q hosted entry).result = .ok text) ∧
    (∀ g g', (l.graph P hosted entry).result = .ok g → (l.graph Q hosted entry).result = .ok g' →
      List.Forall₂ (l.Counterparts P Q) g.modules g'.modules ∧
      ((∀ m ∈ g.modules, ¬ m.id.IsRooted) → Bundle.emit g = Bundle.emit g')) ∧
    (l.Clear → ∀ text, (l.bundle P hosted entry).result = .ok text ↔
      (l.bundle Q hosted entry).result = .ok text) := by
  obtain ⟨p, hp, rfl⟩ := hP.exists_names
  obtain ⟨q, hq, rfl⟩ := hQ.exists_names
  refine ⟨?_, fun g g' h h' => ?_, fun hc => ?_⟩
  case refine_1 =>
    rw [exists_bundle_iff, exists_bundle_iff]
    constructor
    case mp =>
      rintro ⟨g, h⟩
      obtain ⟨g', h', -⟩ := copied hp hq he hd h
      exact ⟨g', h'⟩
    case mpr =>
      rintro ⟨g, h⟩
      obtain ⟨g', h', -⟩ := copied hq hp he hd h
      exact ⟨g', h'⟩
  case refine_2 =>
    obtain ⟨g₀, h₀, hcopied⟩ := copied hp hq he hd h
    obtain rfl : g₀ = g' := Except.ok.inj (h₀.symm.trans h')
    refine ⟨?_, emit_eq hp hq h h' hcopied⟩
    refine (forall₂_and_mem hcopied.modules).imp fun m m' ⟨hm, hm', hc⟩ => ?_
    exact counterparts hp hq he h h' hm hm' hc
  case refine_3 =>
    exact fun text => ⟨bundle_of_clear hp hq hc he hd, bundle_of_clear hq hp hc he hd⟩

-- The entry is a file of a directory, one module is of the host, and one requires the entry.
def nested : Listing where
  files :=
    [(["src", "main.lua"], "local socket = require 'socket'\nreturn require './lib/util'\n"),
      (["src", "lib", "util.lua"], "require('./help' .. 'er')\nreturn { require }\n"),
      (["src", "lib", "helper.lua"], "return {}\n")]
  isWay := by unfold IsName; decide +kernel

theorem bundle_mount_nested :
    (Path.Plain ⟨"/"⟩ ∧ Path.Plain ⟨"/home/my work"⟩ ∧ nested.Descends (.hosting ["socket"]) ∧
      nested.Clear) ∧
    ∃ text, (nested.bundle ⟨"/"⟩ ["socket"] ["src", "main.lua"]).result = .ok text ∧
      (nested.bundle ⟨"/home/my work"⟩ ["socket"] ["src", "main.lua"]).result = .ok text := by
  have hP : Path.Plain ⟨"/"⟩ := ⟨by decide, by decide +kernel⟩
  have hQ : Path.Plain ⟨"/home/my work"⟩ := ⟨by decide, by decide +kernel⟩
  have hd : nested.Descends (.hosting ["socket"]) := by decide +kernel
  have hc : nested.Clear := ⟨by decide +kernel, by decide +kernel, by decide +kernel⟩
  have hentry : (["src", "main.lua"] : List OsString) ∈ nested.files.map Prod.fst := by decide
  have hok : (nested.bundle ⟨"/"⟩ ["socket"] ["src", "main.lua"]).result.map (fun _ => ()) =
      .ok () := by decide +kernel
  obtain ⟨text, htext, -⟩ := exists_of_map_eq_ok hok
  obtain ⟨-, -, hsame⟩ := bundle_mount hP hQ hentry hd
  exact ⟨⟨hP, hQ, hd, hc⟩, text, htext, (hsame hc text).mp htext⟩

-- A file whose name is the id of another file without and with the ending.
def crowded : Listing where
  files :=
    [(["main.lua"], "require './a.lua'\nrequire './a'\n"), (["a.lua"], "return 1\n"),
      (["a"], "return 2\n")]
  isWay := by unfold IsName; decide +kernel

theorem bundle_mount_crowded :
    (Path.Plain ⟨"/p"⟩ ∧ Path.Plain ⟨"/q"⟩ ∧
      (["main.lua"] : List OsString) ∈ crowded.files.map Prod.fst ∧
      crowded.Descends (.hosting [])) ∧
    ∃ text text', (crowded.bundle ⟨"/p"⟩ [] ["main.lua"]).result = .ok text ∧
      (crowded.bundle ⟨"/q"⟩ [] ["main.lua"]).result = .ok text' ∧ text ≠ text' := by
  have hp : Path.Plain ⟨"/p"⟩ := ⟨by decide, by decide +kernel⟩
  have hq : Path.Plain ⟨"/q"⟩ := ⟨by decide, by decide +kernel⟩
  refine ⟨⟨hp, hq, by decide, by decide +kernel⟩, ?_⟩
  have hok : (crowded.bundle ⟨"/p"⟩ [] ["main.lua"]).result.map (fun _ => ()) = .ok () := by
    decide +kernel
  have hok' : (crowded.bundle ⟨"/q"⟩ [] ["main.lua"]).result.map (fun _ => ()) = .ok () := by
    decide +kernel
  have hne : (crowded.bundle ⟨"/p"⟩ [] ["main.lua"]).result.toOption ≠
      (crowded.bundle ⟨"/q"⟩ [] ["main.lua"]).result.toOption := by decide +kernel
  obtain ⟨text, htext, -⟩ := exists_of_map_eq_ok hok
  obtain ⟨text', htext', -⟩ := exists_of_map_eq_ok hok'
  refine ⟨text, text', htext, htext', fun he => hne ?_⟩
  rw [htext, htext', he]

end Bundle

end LuaBundle.Listing

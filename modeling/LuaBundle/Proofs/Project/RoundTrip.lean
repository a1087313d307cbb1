import LuaBundle.Project.Decode
import LuaBundle.Project.Encode
import LuaBundle.Proofs.Text.OsString
import LuaBundle.Proofs.Yaml.Assembly

namespace LuaBundle

-- All that a project file spells out.

def Options.texts (o : Options) : List String :=
  o.searchPaths.map (·.text) ++ o.externals ++ [o.extension]

def CopyFile.texts (c : CopyFile) : List String :=
  [c.source.text, c.destination.text]

def Target.texts (t : Target) : List String :=
  t.name.toList ++ [t.entry.text, t.output.text] ++ t.copies.flatMap CopyFile.texts ++
    t.stringify.toList.map (·.text)

namespace Project

def texts (p : Project) : List String :=
  p.options.texts ++ p.targets.flatMap Target.texts

open Yaml (Document Node Style Value isAmbiguous isBreak isNull)

section Decode

variable {α : Type} {d : Document}

namespace Decode

theorem text_node (t : String) : text d (Value.text t).node = .ok t :=
  rfl

-- A path is read back if its text has all of it.
theorem path_node {p : Path} (h : p.str?.isSome) : path d (Encode.path p).node = .ok p := by
  have hp : (⟨p.toOsString.legible⟩ : Path) = p := congrArg Path.mk (OsString.str?_isSome_iff.mp h)
  exact congrArg Except.ok hp

theorem list_node {item : Document → Node → Except Malformed α} {encode : α → Value} {l : List α}
    (h : ∀ a ∈ l, item d (encode a).node = .ok a) :
    list item d (Value.list (l.map encode)).node = .ok l := by
  have hitems : (Value.nodes (l.map encode)).mapM (item d) = .ok l := by
    induction l with
    | nil => rfl
    | cons a l ih =>
      obtain ⟨ha, hl⟩ := List.forall_mem_cons.mp h
      rw [List.map_cons, Value.nodes, List.mapM_cons, ha, ih hl]
      rfl
  exact hitems

theorem not_nothing {t : String} (h : isAmbiguous t = false) : t ≠ "" ∧ isNull t = false := by
  simp only [isAmbiguous, Bool.or_eq_false_iff] at h
  have hempty : t.toList.isEmpty = false := h.1.1.1.1.1.1
  refine ⟨?_, h.1.1.1.1.1.2⟩
  rintro rfl
  cases hempty

-- A name that looks like nothing is written in quotes.
theorem option_node {value : Document → Node → Except Malformed α} {spell : α → String}
    {o : Option α} (h : ∀ a ∈ o, value d (Value.text (spell a)).node = .ok a) :
    option value d (Encode.option (fun a => .text (spell a)) o).node = .ok o := by
  cases o with
  | none => rfl
  | some a =>
    have ha := h a rfl
    have hread : (value d (Value.text (spell a)).node).map some = .ok (some a) :=
      congrArg (Except.map some) ha
    by_cases hplain : Style.of (spell a) = .plain
    case pos =>
      obtain ⟨hempty, hnull⟩ := not_nothing (Style.of_plain hplain).1
      have hsomething : ¬(spell a = "" || isNull (spell a)) := by simp [hempty, hnull]
      have hnode : (Value.text (spell a)).node = .scalar true none (spell a) := by
        rw [Value.node, decide_eq_true hplain]
      rw [Encode.option, option]
      rw [hnode] at hread ⊢
      exact (if_neg hsomething).trans hread
    case neg =>
      have hnode : (Value.text (spell a)).node = .scalar false none (spell a) := by
        rw [Value.node, decide_eq_false hplain]
      rw [Encode.option, option]
      rw [hnode] at hread ⊢
      exact hread

theorem foldlM_add {known : List String} {entries : List (String × Value)}
    {found : List (String × Node)} (hknown : ∀ e ∈ entries, e.1 ∈ known)
    (hapart : (entries.map Prod.fst).Nodup) (hnew : ∀ e ∈ entries, found.lookup e.1 = none) :
    (Value.entryNodes entries).foldlM (fields.add known d) found =
      .ok ((entries.map fun e => (e.1, e.2.node)).reverse ++ found) := by
  induction entries generalizing found with
  | nil => rfl
  | cons e rest ih =>
    obtain ⟨key, v⟩ := e
    obtain ⟨hk, hknown⟩ := List.forall_mem_cons.mp hknown
    obtain ⟨hn, hnew⟩ := List.forall_mem_cons.mp hnew
    obtain ⟨hkey, hapart⟩ := List.nodup_cons.mp hapart
    have hadd : fields.add known d found (.scalar true none key, v.node) =
        .ok ((key, v.node) :: found) := by
      have hfree : (found.lookup key).isSome = false := by rw [hn, Option.isSome_none]
      show (if key ∉ known then _ else _) = _
      rw [if_neg (not_not_intro hk), hfree]
      rfl
    have hrest : ∀ e ∈ rest, ((key, v.node) :: found).lookup e.1 = none := by
      intro e he
      have hne : e.1 ≠ key := fun h => hkey (List.mem_map.mpr ⟨e, he, h⟩)
      rw [List.lookup_cons, beq_false_of_ne hne]
      exact hnew e he
    rw [Value.entryNodes, List.foldlM_cons, hadd]
    refine (ih hknown hapart hrest).trans ?_
    simp

theorem fields_node {known : List String} {entries : List (String × Value)}
    (hknown : ∀ e ∈ entries, e.1 ∈ known) (hapart : (entries.map Prod.fst).Nodup) :
    fields known d (Value.record entries).node =
      .ok (entries.map fun e => (e.1, e.2.node)).reverse := by
  have hadd : (Value.entryNodes entries).foldlM (fields.add known d) [] = _ :=
    foldlM_add hknown hapart (by simp)
  rwa [List.append_nil] at hadd

theorem required_node {value : Document → Node → Except Malformed α} {a : α} {v : Value}
    {found : List (String × Node)} {key : String} (h : found.lookup key = some v.node)
    (hv : value d v.node = .ok a) : required value d found key = .ok a := by
  rw [required, h]
  exact hv

theorem optional_node {value : Document → Node → Except Malformed α} {a default : α} {v : Value}
    {found : List (String × Node)} {key : String} (h : found.lookup key = some v.node)
    (hv : value d v.node = .ok a) : optional value default d found key = .ok a := by
  rw [optional, h]
  exact hv

theorem options_node {o : Options} (h : ∀ p ∈ o.searchPaths, p.str?.isSome) :
    options d (Encode.options o).node = .ok o := by
  obtain ⟨found, hfields, hpaths, hexternals, hextension⟩ : ∃ found,
      fields ["searchPaths", "externals", "extension"] d (Encode.options o).node = .ok found ∧
        found.lookup "searchPaths" = some (Value.list (o.searchPaths.map Encode.path)).node ∧
        found.lookup "externals" = some (Value.list (o.externals.map Value.text)).node ∧
        found.lookup "extension" = some (Value.text o.extension).node :=
    ⟨_, fields_node (by simp) (by simp), rfl, rfl, rfl⟩
  simp only [options, hfields, bind, Except.bind,
    optional_node hpaths (list_node fun p hp => path_node (h p hp)),
    optional_node hexternals (list_node fun t _ => text_node t),
    optional_node hextension (text_node o.extension)]
  rfl

theorem copyFile_node {c : CopyFile} (hs : c.source.str?.isSome) (hd : c.destination.str?.isSome) :
    copyFile d (Encode.copyFile c).node = .ok c := by
  obtain ⟨found, hfields, hsource, hdestination⟩ : ∃ found,
      fields ["from", "to"] d (Encode.copyFile c).node = .ok found ∧
        found.lookup "from" = some (Encode.path c.source).node ∧
        found.lookup "to" = some (Encode.path c.destination).node :=
    ⟨_, fields_node (by simp) (by simp), rfl, rfl⟩
  simp only [copyFile, hfields, bind, Except.bind, required_node hsource (path_node hs),
    required_node hdestination (path_node hd)]
  rfl

theorem target_node {t : Target} (h : ∀ p ∈ t.paths, p.str?.isSome) :
    target d (Encode.target t).node = .ok t := by
  simp only [Target.paths, List.cons_append, List.forall_mem_cons, List.forall_mem_append,
    List.forall_mem_flatMap, Option.mem_toList] at h
  obtain ⟨hentry', houtput', hcopies', hstringify'⟩ := h
  obtain ⟨found, hfields, hname, hentry, houtput, hcopies, hstringify⟩ : ∃ found,
      fields ["name", "entry", "output", "copy", "stringify"] d (Encode.target t).node = .ok found ∧
        found.lookup "name" = some (Encode.option Value.text t.name).node ∧
        found.lookup "entry" = some (Encode.path t.entry).node ∧
        found.lookup "output" = some (Encode.path t.output).node ∧
        found.lookup "copy" = some (Value.list (t.copies.map Encode.copyFile)).node ∧
        found.lookup "stringify" = some (Encode.option Encode.path t.stringify).node :=
    ⟨_, fields_node (by simp) (by simp), rfl, rfl, rfl, rfl, rfl⟩
  simp only [target, hfields, bind, Except.bind,
    optional_node hname (option_node fun t _ => text_node t),
    required_node hentry (path_node hentry'), required_node houtput (path_node houtput'),
    optional_node hcopies
      (list_node fun c hc => copyFile_node (hcopies' c hc).1 (hcopies' c hc).2.1),
    optional_node hstringify (option_node fun p hp => path_node (hstringify' p hp))]
  rfl

theorem project_node {p : Project} (h : ∀ q ∈ p.paths, q.str?.isSome) :
    project ⟨some (Value.record (Encode.project p)).node, []⟩ = .ok p := by
  simp only [paths, List.forall_mem_append, List.forall_mem_flatMap] at h
  obtain ⟨hpaths, htargets'⟩ := h
  obtain ⟨found, hfields, hoptions, htargets⟩ : ∃ found,
      fields ["bundlerOptions", "targets"] ⟨some (Value.record (Encode.project p)).node, []⟩
          (Value.record (Encode.project p)).node = .ok found ∧
        found.lookup "bundlerOptions" = some (Encode.options p.options).node ∧
        found.lookup "targets" = some (Value.list (p.targets.map Encode.target)).node :=
    ⟨_, fields_node (by simp [Encode.project]) (by simp [Encode.project]), rfl, rfl⟩
  simp only [project, Option.getD_some, hfields, bind, Except.bind,
    optional_node hoptions (options_node hpaths),
    optional_node htargets (list_node fun t ht => target_node (htargets' t ht))]
  rfl

end Decode
end Decode

section Encode

-- Texts without line breaks.
def Unbroken (ts : List String) : Prop :=
  ∀ t ∈ ts, ∀ c ∈ t.toList, isBreak c = false

instance {ts : List String} : Decidable (Unbroken ts) :=
  decidable_of_iff (∀ t ∈ ts, t.toList.all fun c => !isBreak c) (by simp [Unbroken])

theorem oneLine_option {α : Type} {value : α → Value} {o : Option α}
    (h : ∀ a ∈ o, (value a).OneLine) : (Encode.option value o).OneLine := by
  cases o with
  | none => exact .null
  | some a => exact h a rfl

theorem oneLine_list {α : Type} {value : α → Value} {l : List α}
    (h : ∀ a ∈ l, (value a).OneLine) : (Value.list (l.map value)).OneLine := by
  refine .list fun v hv => ?_
  obtain ⟨a, ha, rfl⟩ := List.mem_map.mp hv
  exact h a ha

theorem oneLine_path {p : Path} (h : ∀ c ∈ p.text.toList, isBreak c = false) :
    (Encode.path p).OneLine :=
  .text h

theorem oneLine_options {o : Options} (h : Unbroken o.texts) : (Encode.options o).OneLine := by
  simp only [Unbroken, Options.texts, List.forall_mem_append, List.forall_mem_cons,
    List.forall_mem_map] at h
  obtain ⟨⟨hpaths, hexternals⟩, hextension, -⟩ := h
  refine .record ?keys ?values
  case keys =>
    have hwords : ∀ key ∈ ["searchPaths", "externals", "extension"],
        Yaml.IsWord key.toList := by decide
    simpa [Encode.options] using hwords
  case values =>
    simp only [List.forall_mem_cons]
    exact ⟨oneLine_list fun p hp => oneLine_path (hpaths p hp),
      oneLine_list fun t ht => .text (hexternals t ht), .text hextension, by simp⟩

theorem oneLine_copyFile {c : CopyFile} (h : Unbroken c.texts) :
    (Encode.copyFile c).OneLine := by
  simp only [Unbroken, CopyFile.texts, List.forall_mem_cons] at h
  obtain ⟨hsource, hdestination, -⟩ := h
  refine .record ?keys ?values
  case keys =>
    have hwords : ∀ key ∈ ["from", "to"], Yaml.IsWord key.toList := by decide
    simpa [Encode.copyFile] using hwords
  case values =>
    simp only [List.forall_mem_cons]
    exact ⟨oneLine_path hsource, oneLine_path hdestination, by simp⟩

theorem oneLine_target {t : Target} (h : Unbroken t.texts) : (Encode.target t).OneLine := by
  simp only [Unbroken, Target.texts, List.forall_mem_append, List.forall_mem_cons,
    List.forall_mem_flatMap, List.forall_mem_map, Option.mem_toList] at h
  obtain ⟨⟨⟨hname, hentry, houtput, -⟩, hcopies⟩, hstringify⟩ := h
  refine .record ?keys ?values
  case keys =>
    have hwords : ∀ key ∈ ["name", "entry", "output", "copy", "stringify"],
        Yaml.IsWord key.toList := by decide
    simpa [Encode.target] using hwords
  case values =>
    simp only [List.forall_mem_cons]
    exact ⟨oneLine_option fun t ht => .text (hname t ht), oneLine_path hentry,
      oneLine_path houtput, oneLine_list fun c hc => oneLine_copyFile (hcopies c hc),
      oneLine_option fun p hp => oneLine_path (hstringify p hp), by simp⟩

theorem oneLine_project {p : Project} (h : Unbroken p.texts) :
    (Value.record (Encode.project p)).OneLine := by
  simp only [Unbroken, texts, List.forall_mem_append, List.forall_mem_flatMap] at h
  obtain ⟨hoptions, htargets⟩ := h
  refine .record ?keys ?values
  case keys =>
    have hwords : ∀ key ∈ ["bundlerOptions", "targets"], Yaml.IsWord key.toList := by decide
    simpa [Encode.project] using hwords
  case values =>
    simp only [Encode.project, List.forall_mem_cons]
    exact ⟨oneLine_options hoptions, oneLine_list fun t ht => oneLine_target (htargets t ht),
      by simp⟩

end Encode

theorem spelled_iff {q : Path} : q.str?.isSome ↔ ∃ spelling, q = .ofString spelling :=
  OsString.str?_isSome_iff_exists.trans
    ⟨fun ⟨t, ht⟩ => ⟨t, congrArg Path.mk ht⟩, fun ⟨t, ht⟩ => ⟨t, congrArg Path.toOsString ht⟩⟩

theorem toYaml_eq_ok_iff {p : Project} {text : String} :
    p.toYaml = .ok text ↔
      (∀ q ∈ p.paths, q.str?.isSome) ∧ Yaml.write (Encode.project p) = text := by
  rw [toYaml, ← List.all_eq_true]
  split
  case isTrue h => simp [h]
  case isFalse h => simp [h]

-- A project can be written just if all paths that it spells are UTF-8, and then it is what its own
-- text describes. Control characters are written as escapes.
theorem parse_toYaml {p : Project} (hp : p.validate = .ok ()) (h : Unbroken p.texts) :
    ((∃ text, p.toYaml = .ok text) ↔ ∀ q ∈ p.paths, ∃ spelling, q = .ofString spelling) ∧
      ∀ text, p.toYaml = .ok text → parse text = .ok p := by
  refine ⟨?success, fun text htext => ?same⟩
  case success =>
    simp only [← spelled_iff, toYaml_eq_ok_iff, exists_and_left, exists_eq', and_true]
  case same =>
    obtain ⟨hpaths, rfl⟩ := toYaml_eq_ok_iff.mp htext
    have hread : Yaml.read (Yaml.write (Encode.project p)) =
        .ok ⟨some (Value.record (Encode.project p)).node, []⟩ :=
      Yaml.read_write (List.cons_ne_nil _ _) (oneLine_project h)
    simp only [parse, hread, Decode.project_node hpaths, hp, Except.mapError, bind, Except.bind]
    rfl

-- A project whose names look like something else.
def awkward : Project where
  options := {
    searchPaths := [⟨"- x"⟩, ⟨""⟩, ⟨"it's here"⟩]
    externals := ["null", "~", "true", "0x1F", "1e3", "# no comment", "a: b", "\"quoted\"", " ", "?"]
    extension := "007" }
  targets := [
    ⟨none, ⟨"null"⟩, ⟨"out/a.lua"⟩, [⟨⟨"a: b"⟩, ⟨"- c"⟩⟩, ⟨⟨"\x1b"⟩, ⟨""⟩⟩], none⟩,
    ⟨some "null", ⟨"src/é.lua"⟩, ⟨""⟩, [], some ⟨""⟩⟩,
    ⟨some "", ⟨"---"⟩, ⟨"*"⟩, [], none⟩]

theorem parse_toYaml_awkward :
    awkward.validate = .ok () ∧ Unbroken awkward.texts ∧
      ∃ text, awkward.toYaml = .ok text ∧ parse text = .ok awkward := by
  have hvalid : awkward.validate = .ok () := by rfl
  have hunbroken : Unbroken awkward.texts := by decide +kernel
  have hspelled : ∀ q ∈ awkward.paths, q.str?.isSome := by decide +kernel
  obtain ⟨hwritten, hread⟩ := parse_toYaml hvalid hunbroken
  obtain ⟨text, htext⟩ := hwritten.mpr fun q hq => spelled_iff.mp (hspelled q hq)
  exact ⟨hvalid, hunbroken, text, htext, hread text htext⟩

-- A project whose only entry is named by a byte that no UTF-8 has.
def illegible : Project where
  options := .default
  targets := [⟨none, ⟨⟨[0xFF]⟩⟩, ⟨"out.lua"⟩, [], none⟩]

-- Without any control character, a project that passes the check cannot be written.
theorem toYaml_illegible :
    illegible.validate = .ok () ∧ Unbroken illegible.texts ∧
      (∀ q ∈ illegible.paths, ∀ b ∈ q.bytes, 0x20 ≤ b ∧ b ≠ 0x7F) ∧
      ¬ ∃ text, illegible.toYaml = .ok text := by
  refine ⟨rfl, by decide +kernel, by decide +kernel, ?_⟩
  rintro ⟨text, htext⟩
  have hpaths := (toYaml_eq_ok_iff.mp htext).1
  exact absurd hpaths (by decide +kernel)

end Project
end LuaBundle

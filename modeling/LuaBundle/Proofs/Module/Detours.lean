import LuaBundle.Proofs.File.Coherent
import LuaBundle.Proofs.Module.Locate
import LuaBundle.Proofs.Path.Rebase

namespace LuaBundle

namespace Path

-- The start of a relative path that leads nowhere: it stays in a directory, or goes into another
-- and back out of it.
inductive Detour : String → Prop
  | nil : Detour ""
  | here {d : String} (h : Detour d) : Detour ("./" ++ d)
  | there {name d : String} (hn : IsName name) (h : Detour d) : Detour (name ++ "/../" ++ d)

variable {base : Path} {d r : String}

theorem pieces_name {n : OsString} (h : IsName n) : pieces n.bytes = [n.bytes] := by
  have hname : ∀ m ∈ [n], IsName m := by simpa using h
  simpa using pieces_intercalate hname

-- A name is taken back by the way up behind it, wherever the two stand.
theorem Detour.foldl_pieces (h : Detour d) (s : List UInt8) (before : List Component) :
    ((pieces (Text.encode d.toList ++ s)).map Segment.component).foldl cleanStep before =
      ((pieces s).map Segment.component).foldl cleanStep before := by
  induction h generalizing before with
  | nil => rfl
  | @here d _ ih =>
    have hbytes : Text.encode ("./" ++ d).toList ++ s =
        [dot] ++ slash :: (Text.encode d.toList ++ s) := by
      rw [String.toList_append, Text.encode_append]
      rfl
    have hvoid : pieces [dot] = [] := by decide
    rw [hbytes, pieces_append_cons, hvoid, List.nil_append, ih]
  | @there name d hn _ ih =>
    have hbytes : Text.encode (name ++ "/../" ++ d).toList ++ s =
        (OsString.ofString name).bytes ++
          slash :: ([dot, dot] ++ slash :: (Text.encode d.toList ++ s)) := by
      rw [String.toList_append, String.toList_append, Text.encode_append, Text.encode_append,
        OsString.bytes_ofString, List.append_assoc, List.append_assoc]
      rfl
    have hup : pieces [dot, dot] = [[dot, dot]] := by decide
    have hname : Segment.component (OsString.ofString name).bytes = .name name :=
      component_eq_name hn.2.2.2
    have hback : cleanStep (cleanStep before (.name name)) .up = before := by
      cases before <;> rfl
    rw [hbytes, pieces_append_cons, pieces_append_cons, pieces_name hn, hup, List.map_append,
      List.map_append, List.foldl_append, List.foldl_append, List.map_singleton,
      List.map_singleton, hname, List.foldl_cons, List.foldl_nil, List.foldl_cons, List.foldl_nil,
      Segment.component, if_pos rfl, hback, ih]

theorem Detour.isAbsolute_append (h : Detour d) (hr : (ofString r).isAbsolute = false) :
    (ofString (d ++ r)).isAbsolute = false := by
  cases h with
  | nil => simpa using hr
  | here => simp [isAbsolute_ofString]
  | @there name d hn =>
    have hne : (ofString name).isEmpty = false := by simpa [isEmpty] using hn.1
    have hrel : (ofString name).isAbsolute = false := by
      have hslash : (OsString.ofString name).bytes.head? ≠ some slash := fun hs =>
        hn.2.1 (List.mem_of_mem_head? hs)
      exact decide_eq_false hslash
    rw [String.append_assoc, String.append_assoc, ofString_append]
    exact (isAbsolute_withEnding hne _).trans hrel

-- From every directory the path leads to the same place without the detour.
theorem Detour.clean_join (h : Detour d) (hr : (ofString r).isAbsolute = false) (base : Path) :
    (base.join (ofString (d ++ r))).clean = (base.join (ofString r)).clean := by
  refine clean_eq_of_stack_eq ?_
  have hd := h.isAbsolute_append hr
  have hbytes : (ofString (d ++ r)).bytes = Text.encode d.toList ++ (ofString r).bytes := by
    simp [Text.encode_append]
  rw [stack_join hd, stack_join hr, foldl_components hd, foldl_components hr, hbytes,
    h.foldl_pieces]

theorem clean_join_eq_of_clean_eq {p q rest : Path} (h : p.clean = q.clean)
    (hrest : rest.isAbsolute = false) : (p.join rest).clean = (q.join rest).clean := by
  refine clean_eq_of_stack_eq ?_
  rw [stack_join hrest, stack_join hrest, clean_eq_clean_iff.mp h]

end Path

namespace Memory

-- Which of several paths is a file is found out from their shortest spellings.
theorem map_clean_find? (m : Memory) (paths : List Path) :
    (paths.find? m.isFile).map Path.clean = (paths.map Path.clean).find? m.isFile := by
  have hclean : m.isFile ∘ Path.clean = m.isFile := by
    funext p
    exact isFile_eq_of_clean_eq p.clean_clean
  rw [List.find?_map, hclean]

end Memory

namespace Locator

open LuaBundle.Path

variable {l : Locator} {m : Memory} {extension reference d : String} {base requester : Path}

theorem candidates_of_not_isDotted (h : isDotted reference = false) :
    candidates extension reference base =
      [base.join (ofString reference),
        (base.join (ofString reference)).withEnding ("." ++ extension),
        (base.join (ofString reference)).join (ofString ("init" ++ ("." ++ extension)))] := by
  simp [candidates, h]

-- With a detour in front a reference is no dotted name: there is a separator in it.
theorem isDotted_detour (hd : Detour d) (h : isDotted reference = false) :
    isDotted (d ++ reference) = false := by
  cases hd with
  | nil => simpa using h
  | here => simp [isDotted]
  | there => simp [isDotted]

theorem map_clean_candidates_detour (hd : Detour d) (hne : reference ≠ "")
    (hr : (ofString reference).isAbsolute = false) (h : isDotted reference = false) (base : Path) :
    (candidates extension (d ++ reference) base).map Path.clean =
      (candidates extension reference base).map Path.clean := by
  have hp : (ofString reference).isEmpty = false := by
    simpa [isEmpty_ofString] using hne
  have hdp : (ofString (d ++ reference)).isEmpty = false := by
    simp [isEmpty_ofString, hne]
  have hinit : (ofString ("init" ++ ("." ++ extension))).isAbsolute = false := by
    simp [isAbsolute_ofString]
  have hending := (isAbsolute_withEnding hp ("." ++ extension)).trans hr
  have hexact := hd.clean_join hr base
  have hended : ((base.join (ofString (d ++ reference))).withEnding ("." ++ extension)).clean =
      ((base.join (ofString reference)).withEnding ("." ++ extension)).clean := by
    rw [join_withEnding hdp (hd.isAbsolute_append hr), join_withEnding hp hr,
      ← ofString_append, ← ofString_append, String.append_assoc]
    exact hd.clean_join (ofString_append reference _ ▸ hending) base
  rw [candidates_of_not_isDotted h, candidates_of_not_isDotted (isDotted_detour hd h)]
  simp only [List.map_cons, List.map_nil, hexact, hended, clean_join_eq_of_clean_eq hexact hinit]

theorem map_clean_allCandidates_detour (hd : Detour d) (hne : reference ≠ "")
    (hr : (ofString reference).isAbsolute = false) (h : isDotted reference = false)
    (requester : Path) :
    (l.allCandidates (d ++ reference) requester).map Path.clean =
      (l.allCandidates reference requester).map Path.clean := by
  rw [allCandidates, allCandidates, if_neg (by simp [hne]), if_neg (by simp [hne]),
    List.map_flatMap, List.map_flatMap]
  exact congrArg (List.flatMap · _) (funext (map_clean_candidates_detour hd hne hr h))

section Memory

variable {roots : List Path} {candidate : Path}

-- Look-ups among the files of a memory.
def ofMemory (m : Memory) (roots : List Path) (extension : String) : Locator :=
  ⟨m.fileSystem.toFileSystem, roots, extension⟩

-- In memory every file has a canonical path.
theorem locate_of_find?
    (h : ((ofMemory m roots extension).allCandidates reference requester).find? m.isFile =
      some candidate) :
    (ofMemory m roots extension).locate reference requester = .ok (m.resolve candidate) := by
  have hfile : m.isFile candidate := List.find?_some h
  have hcanonical : m.canonicalize candidate = .ok (m.resolve candidate) :=
    Memory.canonicalize_eq_ok_iff.mpr ⟨hfile, rfl⟩
  have hfiles : (ofMemory m roots extension).files = m.fileSystem.toFileSystem := rfl
  rw [locate, hfiles]
  simp only [Memory.fileSystem, h, hcanonical, Except.mapError]

theorem locate_of_find?_eq_none
    (h : ((ofMemory m roots extension).allCandidates reference requester).find? m.isFile = none) :
    (ofMemory m roots extension).locate reference requester =
      .error (.unresolved reference requester) := by
  have hfiles : (ofMemory m roots extension).files = m.fileSystem.toFileSystem := rfl
  rw [locate, hfiles]
  simp only [Memory.fileSystem, h]

-- A detour in a reference does not change where it leads to, and if it leads nowhere, not that
-- either. The files that are tried are spelled otherwise, but are the same one by one.
theorem locate_detour (m : Memory) (roots : List Path) (extension : String) (requester : Path)
    (hd : Detour d) (hne : reference ≠ "") (hr : (ofString reference).isAbsolute = false)
    (h : isDotted reference = false) :
    (∃ path, (ofMemory m roots extension).locate (d ++ reference) requester = .ok path ∧
      (ofMemory m roots extension).locate reference requester = .ok path) ∨
    (ofMemory m roots extension).locate (d ++ reference) requester =
        .error (.unresolved (d ++ reference) requester) ∧
      (ofMemory m roots extension).locate reference requester =
        .error (.unresolved reference requester) := by
  have hfind : (((ofMemory m roots extension).allCandidates (d ++ reference) requester).find?
        m.isFile).map Path.clean =
      (((ofMemory m roots extension).allCandidates reference requester).find?
        m.isFile).map Path.clean := by
    rw [m.map_clean_find?, m.map_clean_find?, map_clean_allCandidates_detour hd hne hr h]
  cases hfound : ((ofMemory m roots extension).allCandidates reference requester).find?
      m.isFile with
  | none =>
    rw [hfound, Option.map_none, Option.map_eq_none_iff] at hfind
    exact .inr ⟨locate_of_find?_eq_none hfind, locate_of_find?_eq_none hfound⟩
  | some p =>
    rw [hfound, Option.map_some] at hfind
    obtain ⟨q, hq, hclean⟩ := Option.map_eq_some_iff.mp hfind
    refine .inl ⟨m.resolve p, ?_, locate_of_find? hfound⟩
    rw [locate_of_find? hq, Memory.resolve_eq_of_clean_eq hclean]

-- A file that is to be had through a link above the working directory.
def above : Memory :=
  (Memory.empty.addFile ⟨"/q/a/init.lua"⟩ "return 1").addLink ⟨"../a/init.lua"⟩ ⟨"/q/a/init.lua"⟩

theorem locate_detour_above :
    Detour "./x/../" ∧ "../a/" ≠ "" ∧ (ofString "../a/").isAbsolute = false ∧
    isDotted "../a/" = false ∧
    ((∃ path, (ofMemory above [] "lua").locate ("./x/../" ++ "../a/") ⟨"main.lua"⟩ = .ok path ∧
      (ofMemory above [] "lua").locate "../a/" ⟨"main.lua"⟩ = .ok path) ∨
    (ofMemory above [] "lua").locate ("./x/../" ++ "../a/") ⟨"main.lua"⟩ =
        .error (.unresolved ("./x/../" ++ "../a/") ⟨"main.lua"⟩) ∧
      (ofMemory above [] "lua").locate "../a/" ⟨"main.lua"⟩ =
        .error (.unresolved "../a/" ⟨"main.lua"⟩)) :=
  have hname : IsName "x" := ⟨by decide, by decide, by decide, by decide⟩
  have htext : "./" ++ ("x" ++ "/../" ++ "") = "./x/../" := by decide
  have hd : Detour "./x/../" := htext ▸ .here (.there hname .nil)
  ⟨hd, by decide, by decide, by decide,
    locate_detour above [] "lua" ⟨"main.lua"⟩ hd (by decide) (by decide) (by decide)⟩

example : ((ofMemory above [] "lua").locate ("./x/../" ++ "../a/") ⟨"main.lua"⟩).toOption =
    some ⟨"/q/a/init.lua"⟩ := by
  decide +kernel

end Memory

end Locator
end LuaBundle

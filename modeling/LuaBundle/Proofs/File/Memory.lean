import LuaBundle.File.Memory
import LuaBundle.Proofs.Path.Clean

namespace LuaBundle

theorem lookup_filter_ne {κ α : Type} [DecidableEq κ] [BEq κ] [LawfulBEq κ] {key k : κ}
    (h : k ≠ key) (table : List (κ × α)) :
    (table.filter (·.1 ≠ key)).lookup k = table.lookup k := by
  induction table with
  | nil => rfl
  | cons entry table ih =>
    obtain ⟨key', value⟩ := entry
    by_cases he : key' = key
    case pos =>
      have hne : (k == key') = false := by simpa [he] using h
      rw [List.filter_cons_of_neg (by simp [he]), List.lookup_cons, hne, ih]
    case neg =>
      rw [List.filter_cons_of_pos (by simp [he]), List.lookup_cons, List.lookup_cons, ih]

namespace Memory

-- The memories that adding files and links makes.
inductive Built : Memory → Prop
  | empty : Built .empty
  | addFile {m : Memory} (h : Built m) (path : Path) (content : String) :
      Built (m.addFile path content)
  | addLink {m : Memory} (h : Built m) (link target : Path) : Built (m.addLink link target)

-- A path under which a file is kept.
def Holds (m : Memory) (p : Path) : Prop :=
  p ∈ m.files.map Prod.fst

section Table

variable {α : Type} {key k : Path} {value : α} {table : List (Path × α)}

theorem mem_of_mem_put {entry : Path × α} (h : entry ∈ put key value table) :
    entry = (key, value) ∨ entry ∈ table := by
  rcases List.mem_cons.mp h with rfl | h
  case inl => exact .inl rfl
  case inr => exact .inr (List.mem_filter.mp h).1

theorem mem_keys_iff_isSome_lookup : key ∈ table.map Prod.fst ↔ (table.lookup key).isSome := by
  refine ⟨fun h => ?_, mem_keys_of_lookup_isSome⟩
  induction table with
  | nil => cases h
  | cons entry table ih =>
    obtain ⟨k, v⟩ := entry
    rw [List.lookup_cons]
    by_cases hk : key = k
    case pos => simp [hk]
    case neg =>
      have hk' : (key == k) = false := by simpa using hk
      rw [hk']
      exact ih (by simpa [hk] using h)

theorem lookup_put (key k : Path) (value : α) (table : List (Path × α)) :
    (put key value table).lookup k = if k = key then some value else table.lookup k := by
  rw [put, List.lookup_cons]
  by_cases hk : k = key
  case pos => simp [hk]
  case neg =>
    have hne : (k == key) = false := by simpa using hk
    rw [hne, if_neg hk]
    exact lookup_filter_ne hk table

end Table

theorem read_eq_of_resolve_eq {m : Memory} {p q : Path} (h : m.resolve p = m.resolve q) (hq : m.isFile q) :
    m.read p = m.read q := by
  have hc : m.content? p = m.content? q := by rw [content?, content?, h]
  obtain ⟨content, hcontent⟩ := Option.isSome_iff_exists.mp hq
  rw [read, read, hc, hcontent]

theorem isFile_of_read {m : Memory} {p : Path} {source : String} (h : m.read p = .ok source) : m.isFile p := by
  rw [isFile]
  cases hc : m.content? p with
  | none => simp [read, hc] at h
  | some content => rfl

section AddFile

theorem lookup_addFile (m : Memory) (path : Path) (content : String) (k : Path) :
    (m.addFile path content).files.lookup k =
      if k = path.clean then some content else m.files.lookup k :=
  lookup_put path.clean k content m.files

-- A file that is added changes no link.
theorem follow_addFile (m : Memory) (path : Path) (content : String) (hops : Nat) (p : Path) :
    (m.addFile path content).follow hops p = m.follow hops p := by
  induction hops generalizing p with
  | zero => rfl
  | succ hops ih =>
    have hlinks : (m.addFile path content).links = m.links := rfl
    rw [follow, follow, hlinks]
    cases m.links.lookup p with
    | none => rfl
    | some target => exact ih target

theorem resolve_addFile (m : Memory) (path : Path) (content : String) (p : Path) :
    (m.addFile path content).resolve p = m.resolve p :=
  follow_addFile m path content maxHops p.clean

theorem content?_addFile (m : Memory) (path : Path) (content : String) (p : Path) :
    (m.addFile path content).content? p =
      if m.resolve p = path.clean then some content else m.content? p := by
  rw [content?, lookup_addFile, resolve_addFile, content?]

end AddFile

-- Every file is kept under a path in its shortest spelling.
theorem Built.clean_eq {m : Memory} (h : Built m) {p : Path} (hp : m.Holds p) :
    ∃ q, p = Path.clean q := by
  induction h with
  | empty => cases hp
  | @addFile m _ path content ih =>
    obtain ⟨entry, he, rfl⟩ := List.mem_map.mp hp
    rcases mem_of_mem_put he with rfl | he
    case inl => exact ⟨path, rfl⟩
    case inr => exact ih (List.mem_map_of_mem he)
  | addLink _ _ _ ih => exact ih hp

theorem Built.resolve_eq {m : Memory} (h : Built m)
    (hl : ∀ p, m.Holds p → p ∉ m.links.map Prod.fst) {p : Path} (hp : m.Holds p) :
    m.resolve p = p := by
  have hlookup : m.links.lookup p = none := by
    cases hlookup : m.links.lookup p with
    | none => rfl
    | some target =>
      exact absurd (mem_keys_iff_isSome_lookup.mpr (by simp [hlookup])) (hl p hp)
  obtain ⟨q, rfl⟩ := h.clean_eq hp
  rw [resolve, Path.clean_clean, maxHops, follow, hlookup]

theorem Built.plain {m : Memory} (h : Built m) (ha : ∀ p, m.Holds p → p.isAbsolute) {p : Path}
    (hp : m.Holds p) : p.Plain := by
  have hp' := ha p hp
  obtain ⟨q, rfl⟩ := h.clean_eq hp
  exact .of_clean (Path.isAbsolute_of_clean hp')

-- The memory with another text in the file that a path leads to.
def overwrite (m : Memory) (p : Path) (content : String) : Memory :=
  m.addFile (m.resolve p) content

namespace Built

variable {m : Memory} {p : Path} {content : String}

theorem content?_overwrite (h : Built m) (hp : m.isFile p) (q : Path) :
    (m.overwrite p content).content? q =
      if m.resolve q = m.resolve p then some content else m.content? q := by
  obtain ⟨r, hr⟩ := h.clean_eq (mem_keys_iff_isSome_lookup.mpr hp)
  rw [overwrite, content?_addFile, hr, Path.clean_clean]

-- Which files there are is not for a text to change.
theorem isFile_overwrite (h : Built m) (hp : m.isFile p) :
    (m.overwrite p content).isFile = m.isFile := by
  funext q
  rw [isFile, h.content?_overwrite hp]
  by_cases hq : m.resolve q = m.resolve p
  case neg => rw [if_neg hq, isFile]
  case pos =>
    rw [isFile, content?] at hp ⊢
    rw [if_pos hq, hq, hp, Option.isSome_some]

theorem canonicalize_overwrite (h : Built m) (hp : m.isFile p) :
    (m.overwrite p content).canonicalize = m.canonicalize := by
  funext q
  rw [canonicalize, canonicalize, h.isFile_overwrite hp, overwrite, resolve_addFile]

theorem read_overwrite (h : Built m) (hp : m.isFile p) (q : Path) :
    (m.overwrite p content).read q =
      if m.resolve q = m.resolve p then .ok content else m.read q := by
  rw [read, h.content?_overwrite hp]
  by_cases hq : m.resolve q = m.resolve p
  case pos => rw [if_pos hq, if_pos hq]
  case neg => rw [if_neg hq, if_neg hq, read]

end Built

-- Files that have absolute paths other than the root, without backslashes, and that are no links.
structure Regular (m : Memory) : Prop where
  built : Built m
  absolute : ∀ p, m.Holds p → p.isAbsolute
  ne_root : ∀ p, m.Holds p → p ≠ ⟨"/"⟩
  no_backslash : ∀ p, m.Holds p → 0x5C ∉ p.bytes
  no_link : ∀ p, m.Holds p → p ∉ m.links.map Prod.fst

namespace Regular

variable {m : Memory} {p q : Path} {source : String}

-- For a memory of few files the conditions on their paths can be computed.
theorem of_files (h : Built m) (hp : ∀ p ∈ m.files.map Prod.fst,
    p.isAbsolute ∧ p ≠ ⟨"/"⟩ ∧ 0x5C ∉ p.bytes ∧ p ∉ m.links.map Prod.fst) : m.Regular where
  built := h
  absolute := fun p hm => (hp p hm).1
  ne_root := fun p hm => (hp p hm).2.1
  no_backslash := fun p hm => (hp p hm).2.2.1
  no_link := fun p hm => (hp p hm).2.2.2

theorem plain (h : m.Regular) (hp : m.Holds p) : p.Plain :=
  h.built.plain h.absolute hp

theorem resolve_eq (h : m.Regular) (hp : m.Holds p) : m.resolve p = p :=
  h.built.resolve_eq h.no_link hp

-- A file is read under its own path.
theorem read_eq_ok_iff (h : m.Regular) (hp : m.Holds p) :
    m.read p = .ok source ↔ m.files.lookup p = some source := by
  rw [read, content?, h.resolve_eq hp]
  cases m.files.lookup p <;> simp

end Regular

end Memory
end LuaBundle

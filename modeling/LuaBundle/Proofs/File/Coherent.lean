import LuaBundle.Proofs.File.Memory

namespace LuaBundle.Memory

variable {m : Memory} {p q c : Path}

section Spelling

-- A memory sees no more of a path than its shortest spelling.
theorem resolve_eq_of_clean_eq (h : q.clean = p.clean) : m.resolve q = m.resolve p := by
  rw [resolve, resolve, h]

theorem content?_eq_of_clean_eq (h : q.clean = p.clean) : m.content? q = m.content? p := by
  rw [content?, content?, resolve_eq_of_clean_eq h]

theorem isFile_eq_of_clean_eq (h : q.clean = p.clean) : m.isFile q = m.isFile p := by
  rw [isFile, isFile, content?_eq_of_clean_eq h]

theorem canonicalize_eq_of_clean_eq (h : q.clean = p.clean) :
    m.canonicalize q = (m.canonicalize p).mapError fun _ => .missing q := by
  rw [canonicalize, canonicalize, isFile_eq_of_clean_eq h, resolve_eq_of_clean_eq h]
  by_cases hp : m.isFile p
  case pos =>
    rw [if_pos hp, if_pos hp]
    rfl
  case neg =>
    rw [if_neg hp, if_neg hp]
    rfl

theorem read_eq_of_clean_eq (h : q.clean = p.clean) :
    m.read q = (m.read p).mapError fun _ => .missing q := by
  rw [read, read, content?_eq_of_clean_eq h]
  cases m.content? p with
  | none => rfl
  | some => rfl

end Spelling

section Canonical

theorem canonicalize_eq_ok_iff : m.canonicalize p = .ok c ↔ m.isFile p ∧ m.resolve p = c := by
  rw [canonicalize]
  by_cases hp : m.isFile p
  case pos => simp [hp]
  case neg => simp [hp]

theorem exists_read_iff : (∃ source, m.read p = .ok source) ↔ m.isFile p := by
  rw [read, isFile]
  cases m.content? p <;> simp

theorem holds_resolve (h : m.isFile p) : m.Holds (m.resolve p) :=
  mem_keys_of_lookup_isSome h

-- What a memory answers about a path is of one piece: there is a file, a canonical path and a text
-- or none of them, the canonical path leads to the same text and no further, and how the path is
-- spelled makes no difference.
structure Coherent (m : Memory) (p : Path) : Prop where
  canonicalize_iff : (∃ c, m.canonicalize p = .ok c) ↔ m.isFile p
  read_iff : (∃ source, m.read p = .ok source) ↔ m.isFile p
  canonical : ∀ c, m.canonicalize p = .ok c →
    c.clean = c ∧ m.canonicalize c = .ok c ∧ m.read c = m.read p
  spelling : ∀ q : Path, q.clean = p.clean →
    m.isFile q = m.isFile p ∧
    m.canonicalize q = (m.canonicalize p).mapError (fun _ => .missing q) ∧
    m.read q = (m.read p).mapError (fun _ => .missing q)

-- Wherever the hops run out, what a path resolves to is a file only if it is the end of its chain:
-- no file is kept under the path of a link.
theorem Built.coherent (h : Built m) (hl : ∀ p, m.Holds p → p ∉ m.links.map Prod.fst) (p : Path) :
    m.Coherent p where
  canonicalize_iff := by simp [canonicalize_eq_ok_iff]
  read_iff := exists_read_iff
  canonical c hc := by
    obtain ⟨hp, rfl⟩ := canonicalize_eq_ok_iff.mp hc
    have hheld := holds_resolve hp
    have hend := h.resolve_eq hl hheld
    have hfile : m.isFile (m.resolve p) := by rwa [isFile, content?, hend]
    obtain ⟨q, hq⟩ := h.clean_eq hheld
    refine ⟨?clean, canonicalize_eq_ok_iff.mpr ⟨hfile, hend⟩, read_eq_of_resolve_eq hend hp⟩
    case clean => rw [hq, Path.clean_clean]
  spelling q hq :=
    ⟨isFile_eq_of_clean_eq hq, canonicalize_eq_of_clean_eq hq, read_eq_of_clean_eq hq⟩

end Canonical

section Additions

-- What a path can be in a memory.
inductive Kind
  | file
  | link
deriving DecidableEq, Repr

-- The paths that a memory keeps something of one kind under.
def keys (m : Memory) : Kind → List Path
  | .file => m.files.map Prod.fst
  | .link => m.links.map Prod.fst

-- One file or one link that is put into a memory.
inductive Addition
  | file (path : Path) (content : String)
  | link (path target : Path)
deriving DecidableEq, Repr

namespace Addition

def kind : Addition → Kind
  | file _ _ => .file
  | link _ _ => .link

-- The path that is taken in the memory.
def place : Addition → Path
  | file path _ => path.clean
  | link path _ => path.clean

def applyTo (m : Memory) : Addition → Memory
  | file path content => m.addFile path content
  | link path target => m.addLink path target

end Addition

-- The memory that additions make, one after the other.
def ofAdditions (additions : List Addition) : Memory :=
  additions.foldl Addition.applyTo .empty

-- No path is taken by a file and by a link.
def Unmixed (additions : List Addition) : Prop :=
  ∀ a ∈ additions, ∀ b ∈ additions, a.place = b.place → a.kind = b.kind

instance (additions : List Addition) : Decidable (Unmixed additions) :=
  inferInstanceAs
    (Decidable (∀ a ∈ additions, ∀ b ∈ additions, a.place = b.place → a.kind = b.kind))

variable {additions : List Addition} {a : Addition} {kind : Kind}

theorem Built.applyTo (h : Built m) (a : Addition) : Built (a.applyTo m) := by
  cases a with
  | file path content => exact h.addFile path content
  | link path target => exact h.addLink path target

theorem Built.foldl_applyTo (h : Built m) (additions : List Addition) :
    Built (additions.foldl Addition.applyTo m) := by
  induction additions generalizing m with
  | nil => exact h
  | cons a additions ih => exact ih (h.applyTo a)

theorem built_ofAdditions (additions : List Addition) : Built (ofAdditions additions) :=
  Built.empty.foldl_applyTo additions

-- An addition takes its own place in its own table and leaves the rest.
theorem mem_keys_applyTo (h : p ∈ (a.applyTo m).keys kind) :
    p ∈ m.keys kind ∨ a.kind = kind ∧ a.place = p := by
  have put {α : Type} {key : Path} {value : α} {table : List (Path × α)}
      (hp : p ∈ (put key value table).map Prod.fst) : p ∈ table.map Prod.fst ∨ key = p := by
    obtain ⟨entry, he, rfl⟩ := List.mem_map.mp hp
    rcases mem_of_mem_put he with rfl | he
    case inl => exact .inr rfl
    case inr => exact .inl (List.mem_map_of_mem he)
  cases a with
  | file path content =>
    cases kind with
    | file => exact (put h).imp_right fun hp => ⟨rfl, hp⟩
    | link => exact .inl h
  | link path target =>
    cases kind with
    | file => exact .inl h
    | link => exact (put h).imp_right fun hp => ⟨rfl, hp⟩

theorem mem_keys_foldl_applyTo (h : p ∈ (additions.foldl Addition.applyTo m).keys kind) :
    p ∈ m.keys kind ∨ ∃ a ∈ additions, a.kind = kind ∧ a.place = p := by
  induction additions generalizing m with
  | nil => exact .inl h
  | cons a additions ih =>
    rcases ih h with h | ⟨b, hb, htaken⟩
    case inl => exact (mem_keys_applyTo h).imp_right fun htaken => ⟨a, List.mem_cons_self, htaken⟩
    case inr => exact .inr ⟨b, .tail a hb, htaken⟩

theorem exists_of_mem_keys (h : p ∈ (ofAdditions additions).keys kind) :
    ∃ a ∈ additions, a.kind = kind ∧ a.place = p := by
  refine (mem_keys_foldl_applyTo h).resolve_left fun hempty => ?_
  cases kind <;> cases hempty

theorem Unmixed.not_mem_links (h : Unmixed additions) (p : Path)
    (hp : (ofAdditions additions).Holds p) : p ∉ (ofAdditions additions).links.map Prod.fst := by
  intro hlink
  have hp : p ∈ (ofAdditions additions).keys .file := hp
  have hlink : p ∈ (ofAdditions additions).keys .link := hlink
  obtain ⟨a, ha, hfile, hplace⟩ := exists_of_mem_keys hp
  obtain ⟨b, hb, hlink, hplace'⟩ := exists_of_mem_keys hlink
  have hkind := h a ha b hb (hplace.trans hplace'.symm)
  rw [hfile, hlink] at hkind
  cases hkind

-- The chains of links may be of any length, and they may lead round in circles.
theorem coherent_ofAdditions (h : Unmixed additions) (p : Path) :
    (ofAdditions additions).Coherent p :=
  (built_ofAdditions additions).coherent h.not_mem_links p

-- Two links that lead to each other, and two that lead to a file.
def tangle : List Addition := [
  .link ⟨"x"⟩ ⟨"./y"⟩, .link ⟨"y"⟩ ⟨"z/../x"⟩,
  .link ⟨"/p/b"⟩ ⟨"/p/c"⟩, .link ⟨"/p/./c"⟩ ⟨"/p/a.lua"⟩,
  .file ⟨"/p/../p/a.lua"⟩ "return 1"]

theorem coherent_tangle : Unmixed tangle ∧ (ofAdditions tangle).Coherent ⟨"./x"⟩ ∧
    (ofAdditions tangle).Coherent ⟨"/p/q/../b"⟩ :=
  have h : Unmixed tangle := by decide +kernel
  ⟨h, coherent_ofAdditions h _, coherent_ofAdditions h _⟩

example : (ofAdditions tangle).isFile ⟨"./x"⟩ = false ∧
    ((ofAdditions tangle).canonicalize ⟨"/p/q/../b"⟩).toOption = some ⟨"/p/a.lua"⟩ := by
  decide +kernel

end Additions

end LuaBundle.Memory

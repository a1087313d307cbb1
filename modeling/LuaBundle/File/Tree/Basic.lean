import LuaBundle.File.System
import LuaBundle.Text.Utf8

namespace LuaBundle

-- Where something is: the names on the way from the root.
abbrev Location :=
  List OsString

namespace Location

def path (place : Location) : Path :=
  ⟨⟨Path.slash :: [Path.slash].intercalate (place.map (·.bytes))⟩⟩

-- The location and those of the directories around it.
def around (place : Location) : List Location :=
  (List.range (place.length + 1)).map place.take

theorem mem_around_of_isPrefix {place other : Location} (h : place <+: other) :
    place ∈ other.around := by
  refine List.mem_map.mpr ⟨place.length, ?_, (List.prefix_iff_eq_take.mp h).symm⟩
  have := h.length_le
  simp only [List.mem_range]
  omega

end Location

inductive Entry
  | directory
  | file (content : ByteArray)
  | link (target : Path)

namespace Entry

def isDirectory : Entry → Bool
  | directory => true
  | _ => false

def isFile : Entry → Bool
  | file _ => true
  | _ => false

end Entry

-- Files, directories and links, and the directory that relative paths start from. The root is a
-- directory in any case.
structure Tree where
  entries : List (Location × Entry)
  here : Location

namespace Tree

def get? (t : Tree) : Location → Option Entry
  | [] => some .directory
  | place => t.entries.lookup place

-- Whether there is a directory at a place.
def hasDirectory (t : Tree) (place : Location) : Bool :=
  (t.get? place).any Entry.isDirectory

-- The names between the separators of a path. Empty ones stand for no step, as `.` does.
def segments (p : Path) : List OsString :=
  (p.bytes.splitOn Path.slash).map OsString.mk

-- Where a path starts that is met in a directory.
def start (place : Location) (p : Path) : Location :=
  if p.isAbsolute then [] else place

-- No name is longer than this, and no path reaches the other limit, both in bytes.
def maxName : Nat :=
  255

def pathLimit : Nat :=
  4096

-- No more links than this are followed on the way to one place.
def maxLinks : Nat :=
  40

-- The steps of all links together: no link puts more of them in front of a walk.
def linkSteps (t : Tree) : Nat :=
  t.entries.foldr (fun e n => steps e.2 + n) 0
where
  steps : Entry → Nat
    | .link target => (segments target).length
    | _ => 0

theorem length_segments_le_linkSteps {t : Tree} {place : Location} {target : Path}
    (h : t.get? place = some (.link target)) : (segments target).length ≤ t.linkSteps := by
  have hl : t.entries.lookup place = some (.link target) := by
    cases place with
    | nil => simp [get?] at h
    | cons => exact h
  unfold linkSteps
  generalize t.entries = entries at hl
  induction entries with
  | nil => cases hl
  | cons entry entries ih =>
    rw [List.lookup_cons] at hl
    rw [List.foldr_cons]
    split at hl
    case h_1 =>
      rw [Option.some.inj hl]
      exact Nat.le_add_right _ _
    case h_2 => exact Nat.le_add_left_of_le (ih hl)

-- The place that some steps lead to. Every step needs a directory to start from, even `..`, and
-- links are followed wherever they stand. If the walk creates, the last name may be a new one, but
-- no separator may follow it.
def walk (t : Tree) (creates : Bool) (links : Nat) (place : Location) :
    List OsString → Except Errno Location
  | [] => .ok place
  | s :: rest =>
    if !t.hasDirectory place then .error .notDirectory
    else if s = "" || s = "." then walk t creates links place rest
    else if s = ".." then walk t creates links place.dropLast rest
    else if creates && !rest.isEmpty && rest.all (· = "") then .error .isDirectory
    else if maxName < s.bytes.length then .error .nameTooLong
    else
      match _h : t.get? (place ++ [s]) with
      | none => if creates && rest.isEmpty then .ok (place ++ [s]) else .error .noEntry
      | some (.link target) =>
        match links with
        | 0 => .error .tooManyLinks
        | links + 1 => walk t creates links (start place target) (segments target ++ rest)
      | some _ => walk t creates links (place ++ [s]) rest
termination_by steps => links * (t.linkSteps + 1) + steps.length
decreasing_by
  · simp
  · simp
  · have := length_segments_le_linkSteps _h
    simp only [List.length_append, List.length_cons, Nat.succ_mul]
    omega
  · simp

-- The place of a path.
def locate (t : Tree) (creates : Bool) (p : Path) : Except FileError Location :=
  if p.bytes.contains 0 then .error .nulInPath
  else if p.isEmpty then .error (.system .noEntry)
  else if pathLimit ≤ p.bytes.length then .error (.system .nameTooLong)
  else (t.walk creates maxLinks (start t.here p) (segments p)).mapError .system

theorem walk_of_locate {t : Tree} {creates : Bool} {p : Path} {place : Location}
    (h : t.locate creates p = .ok place) :
    t.walk creates maxLinks (start t.here p) (segments p) = .ok place := by
  unfold locate at h
  split at h
  case isTrue => cases h
  case isFalse =>
    split at h
    case isTrue => cases h
    case isFalse =>
      split at h
      case isTrue => cases h
      case isFalse =>
        cases hw : t.walk creates maxLinks (start t.here p) (segments p) with
        | error =>
          rw [hw] at h
          cases h
        | ok =>
          rw [hw] at h
          cases h
          rfl

-- What a path leads to, links followed.
def find? (t : Tree) (p : Path) : Option Entry :=
  match t.locate false p with
  | .ok place => t.get? place
  | .error _ => none

def holds (t : Tree) (p : Path) : Bool :=
  (t.find? p).isSome

def isDirectory (t : Tree) (p : Path) : Bool :=
  (t.find? p).any Entry.isDirectory

def isFile (t : Tree) (p : Path) : Bool :=
  (t.find? p).any Entry.isFile

def bytes (t : Tree) (p : Path) : Except FileError ByteArray := do
  match t.get? (← t.locate false p) with
  | some (.file content) => return content
  | some .directory => throw (.system .isDirectory)
  | _ => throw (.system .noEntry)

-- The source text in a file.
def read (t : Tree) (p : Path) : Except FileError String := do
  let content ← t.bytes p
  match String.fromUTF8? content with
  | some text => return text
  | none => throw (.encoding ((Text.invalidAt? content.toList).getD 0))

-- The text in a file of another kind.
def readText (t : Tree) (p : Path) : Except FileError String := do
  match String.fromUTF8? (← t.bytes p) with
  | some text => return text
  | none => throw .notText

def canonicalize (t : Tree) (p : Path) : Except FileError Path :=
  (t.locate false p).map Location.path

theorem exists_of_canonicalize {t : Tree} {p q : Path} (h : t.canonicalize p = .ok q) :
    ∃ place, t.locate false p = .ok place ∧ place.path = q := by
  cases hl : t.locate false p with
  | error => simp [canonicalize, hl, Except.map] at h
  | ok place => exact ⟨place, rfl, by simpa [canonicalize, hl, Except.map] using h⟩

-- Every place that a walk can lead to.
def places (t : Tree) : List Location :=
  (t.here :: t.entries.map (·.1)).flatMap Location.around

def IsPlace (t : Tree) (place : Location) : Prop :=
  ∃ other ∈ t.here :: t.entries.map (·.1), place <+: other

theorem IsPlace.of_isPrefix {t : Tree} {place other : Location} (h : t.IsPlace other)
    (hp : place <+: other) : t.IsPlace place :=
  let ⟨o, ho, hpo⟩ := h
  ⟨o, ho, hp.trans hpo⟩

theorem IsPlace.here (t : Tree) : t.IsPlace t.here :=
  ⟨t.here, List.mem_cons_self, List.prefix_rfl⟩

theorem IsPlace.start {t : Tree} {place : Location} (h : t.IsPlace place) (p : Path) :
    t.IsPlace (start place p) := by
  unfold Tree.start
  split
  · exact h.of_isPrefix List.nil_prefix
  · exact h

theorem mem_keys_of_lookup {place : Location} {entries : List (Location × Entry)} {e : Entry}
    (h : entries.lookup place = some e) : place ∈ entries.map (·.1) := by
  induction entries with
  | nil => simp at h
  | cons entry entries ih =>
    rw [List.lookup_cons] at h
    split at h
    case h_1 hk => simp [show place = entry.1 by simpa using hk]
    case h_2 => simp [ih h]

theorem IsPlace.of_get? {t : Tree} {place : Location} {e : Entry} (h : t.get? place = some e) :
    t.IsPlace place := by
  cases place with
  | nil => exact (IsPlace.here t).of_isPrefix List.nil_prefix
  | cons s place => exact ⟨_, List.mem_cons_of_mem _ (mem_keys_of_lookup h), List.prefix_rfl⟩

theorem IsPlace.of_walk {t : Tree} {links : Nat} {place q : Location} {steps : List OsString}
    (hp : t.IsPlace place) (h : t.walk false links place steps = .ok q) : t.IsPlace q := by
  fun_induction walk t false links place steps with
  | case1 => simp_all
  | case2 => simp at h
  | case3 _ _ _ _ _ _ ih => exact ih hp h
  | case4 _ _ _ _ _ ih => exact ih (hp.of_isPrefix (List.dropLast_prefix _)) h
  | case5 => simp_all
  | case6 => simp at h
  | case7 => simp_all
  | case8 => simp at h
  | case9 => simp at h
  | case10 _ _ _ _ _ _ _ _ _ _ _ ih => exact ih (hp.start _) h
  | case11 _ _ _ _ _ _ _ _ _ _ _ he ih => exact ih (.of_get? he) h

theorem mem_places_of_canonicalize {t : Tree} {p q : Path} (h : t.canonicalize p = .ok q) :
    q ∈ t.places.map Location.path := by
  obtain ⟨place, hl, rfl⟩ := exists_of_canonicalize h
  obtain ⟨o, ho, hpo⟩ := ((IsPlace.here t).start p).of_walk (walk_of_locate hl)
  exact List.mem_map_of_mem (List.mem_flatMap.mpr ⟨o, ho, Location.mem_around_of_isPrefix hpo⟩)

def fileSystem (t : Tree) : FiniteFiles where
  isFile := t.isFile
  read := t.read
  canonicalize := t.canonicalize
  known := t.places.map Location.path
  mem_known := mem_places_of_canonicalize

end Tree
end LuaBundle

import LuaBundle.Diagnostic
import LuaBundle.Options
import LuaBundle.Path.Clean
import LuaBundle.Path.Relative
import LuaBundle.Module.Locate
import LuaBundle.Module.Graph

namespace LuaBundle

namespace ModuleId

-- The ids a file would like to have, best first: its path from the root without the ending, and
-- with it.
def wishes (root : Path) (extension : String) (path : Path) : List ModuleId :=
  let relative := path.relativeTo root
  [⟨short relative.toList⟩, ⟨relative⟩]
where
  short (relative : List Char) : String :=
    let ending := '.' :: extension.toList
    let stem := relative.take (relative.length - ending.length)
    if ending.isSuffixOf relative && !stem.isEmpty && stem.getLast? ≠ some '/' then
      String.ofList stem
    else String.ofList relative

end ModuleId

-- What a build knows about files: the id and path of each file found, latest first.
abbrev Findings :=
  List (ModuleId × Path)

namespace Findings

def id? (found : Findings) (path : Path) : Option ModuleId :=
  (found.find? (·.2 ≈ path)).map (·.1)

def owner? (found : Findings) (id : ModuleId) : Option Path :=
  (found.find? (·.1 = id)).map (·.2)

-- An id is free for a file unless another file has it.
def isFree (found : Findings) (path : Path) (id : ModuleId) : Bool :=
  (found.owner? id).all (· ≈ path)

-- The id of a new file: the first of its wishes that is free, and else its whole path.
def newId (found : Findings) (root : Path) (extension : String) (path : Path) : ModuleId :=
  ((ModuleId.wishes root extension path).find? (found.isFree path)).getD ⟨path.slashed⟩

-- The number of paths in a list that are not found yet.
def missing (found : Findings) (known : List Path) : Nat :=
  known.countP fun k => found.all fun f => !(f.2 ≈ k)

theorem missing_cons_lt {found : Findings} {known : List Path} (id : ModuleId) {path : Path}
    (hk : path ∈ known) (hf : found.id? path = none) :
    missing ((id, path) :: found) known < missing found known := by
  have hnew : ∀ f ∈ found, ¬ f.2 ≈ path := by simpa [id?] using hf
  unfold missing
  induction known with
  | nil => simp at hk
  | cons k known ih =>
    have hle : ∀ known : List Path,
        known.countP (fun k => ((id, path) :: found).all fun f => !(f.2 ≈ k)) ≤
          known.countP (fun k => found.all fun f => !(f.2 ≈ k)) := fun known =>
      List.countP_mono_left fun k _ h => by
        rw [List.all_cons, Bool.and_eq_true] at h
        exact h.2
    simp only [List.countP_cons]
    rcases List.mem_cons.mp hk with rfl | hk
    · have h₁ : (((id, path) :: found).all fun f => !(decide (f.2 ≈ path))) = false := by
        rw [List.all_cons, decide_eq_true (Setoid.refl path)]
        rfl
      have h₂ : (found.all fun f => !(decide (f.2 ≈ path))) = true := by
        simpa using fun a b hab => hnew (a, b) hab
      rw [h₁, h₂]
      have := hle known
      simp only [Bool.false_eq_true, if_false, if_true]
      omega
    · have := ih hk
      have hk := hle [k]
      simp only [List.countP_cons, List.countP_nil] at hk
      omega

end Findings

-- What a build has come to: the files found, those among them whose turn is still to come, the
-- external names it has told about, and what it has told.
structure Survey where
  found : Findings
  pending : List (ModuleId × Path)
  reported : List String
  diagnostics : List Diagnostic

namespace Survey

def valueUseMessage : String :=
  "`require` is used as a value; only direct calls are bundled"

def externalMessage (literal : String) : String :=
  s!"'{literal}' is external and left to the host"

def warnValueUses (s : Survey) (path : Path) (spans : List Span) : Survey :=
  { s with diagnostics := s.diagnostics ++ spans.map (⟨.warning, path, ·, valueUseMessage⟩) }

-- An external name is told about where it is met first.
def meetExternal (s : Survey) (path : Path) (call : StaticCall) : Survey :=
  if s.reported.contains call.literal then s
  else
    { s with
      reported := call.literal :: s.reported
      diagnostics := s.diagnostics ++ [⟨.info, path, call.span, externalMessage call.literal⟩] }

-- The id of a file. A file met for the first time gets one and waits for its turn.
def visit (s : Survey) (root : Path) (extension : String) (path : Path) : ModuleId × Survey :=
  match s.found.id? path with
  | some id => (id, s)
  | none =>
    let id := s.found.newId root extension path
    (id, { s with found := (id, path) :: s.found, pending := s.pending ++ [(id, path)] })

-- How many turns a build can still take.
def turns (s : Survey) (known : List Path) : Nat :=
  s.found.missing known + s.pending.length

theorem turns_visit_le {s : Survey} {root path : Path} {extension : String} {known : List Path}
    (h : path ∈ known) : (s.visit root extension path).2.turns known ≤ s.turns known := by
  unfold visit
  split
  case h_1 => simp
  case h_2 hf =>
    have := Findings.missing_cons_lt (s.found.newId root extension path) h hf
    simp only [turns, List.length_append, List.length_singleton]
    omega

theorem turns_meetExternal (s : Survey) (path : Path) (call : StaticCall) (known : List Path) :
    (s.meetExternal path call).turns known = s.turns known := by
  unfold meetExternal
  split <;> rfl

end Survey

-- Bundling from one entry: its directory, where files are looked up, and which names to leave. The
-- files that look-ups lead to are among those in a list.
structure Builder where
  root : Path
  locator : Locator
  options : Options
  known : List Path
  mem_known : ∀ {p q : Path}, locator.files.canonicalize p = .ok q → q ∈ known

namespace Builder

-- The search directories of the options, from the directory of the entry.
def of (files : FiniteFiles) (options : Options) (entry : Path) : Builder where
  root := entry.parent
  locator :=
    { files := files.toFileSystem
      roots := options.searchPaths.map fun p => (entry.parent.join p).clean
      extension := options.extension }
  options := options
  known := files.known
  mem_known := files.mem_known

def visit (b : Builder) (s : Survey) (path : Path) : ModuleId × Survey :=
  s.visit b.root b.options.extension path

-- The references that the calls of a file make, in order. The first call that cannot be resolved
-- ends it.
def follow (b : Builder) (path : Path) : List StaticCall → Survey →
    Except BundleError (List Reference) × Survey
  | [], s => (.ok [], s)
  | call :: calls, s =>
    if b.options.isExternal call.literal then b.follow path calls (s.meetExternal path call)
    else
      match b.locator.locate call.literal path with
      | .error e => (.error e, s)
      | .ok target =>
        let (id, s) := b.visit s target
        let (rest, s) := b.follow path calls s
        (rest.map (⟨call.literal, call.span, target, id⟩ :: ·), s)

theorem turns_follow_le (b : Builder) (path : Path) (calls : List StaticCall) (s : Survey) :
    (b.follow path calls s).2.turns b.known ≤ s.turns b.known := by
  induction calls generalizing s with
  | nil => simp [follow]
  | cons call calls ih =>
    unfold follow
    split
    · exact Nat.le_trans (ih _) (by simp [Survey.turns_meetExternal])
    · split
      · simp
      · next target h =>
        obtain ⟨_, hc⟩ := Locator.exists_of_locate h
        exact Nat.le_trans (ih _) (Survey.turns_visit_le (b.mem_known hc))

-- Read the files whose turn is to come, first found first, and add each to the graph.
def explore (b : Builder) (g : Graph) (s : Survey) : Except BundleError Graph × Survey :=
  match _h : s.pending with
  | [] => (.ok g, s)
  | (id, path) :: pending =>
    match b.locator.files.read path with
    | .error e => (.error (.file path e), s)
    | .ok source =>
      match Requires.of source with
      | .error call => (.error (.dynamic path call), s)
      | .ok requires =>
        let s' := { s with pending := pending }.warnValueUses path requires.valueUses
        match _hf : b.follow path requires.calls s' with
        | (.error e, s') => (.error e, s')
        | (.ok references, s') => b.explore (g.insert ⟨id, path, source, references⟩) s'
termination_by s.turns b.known
decreasing_by
  have h := b.turns_follow_le path requires.calls
    ({ s with pending := pending }.warnValueUses path requires.valueUses)
  rw [_hf] at h
  have ht : ({ s with pending := pending }.warnValueUses path requires.valueUses).turns
      b.known < s.turns b.known := by
    simp [Survey.turns, Survey.warnValueUses, _h]
  exact Nat.lt_of_le_of_lt h ht

end Builder

-- The outcome of an attempt to make something out of files, with the remarks on the way.
structure Outcome (α : Type) where
  result : Except BundleError α
  diagnostics : List Diagnostic

-- The graph of everything that an entry needs. Files are found breadth first and each is read
-- once.
def buildGraph (files : FiniteFiles) (options : Options) (entry : Path) : Outcome Graph :=
  match files.canonicalize entry with
  | .error e => ⟨.error (.file entry e), []⟩
  | .ok path =>
    let b := Builder.of files options path
    let (id, s) := b.visit ⟨[], [], [], []⟩ path
    let (result, s) := b.explore (.empty id) s
    ⟨result, s.diagnostics⟩

end LuaBundle

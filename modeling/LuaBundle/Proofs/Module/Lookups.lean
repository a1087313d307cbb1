import LuaBundle.Proofs.Module.Discovery

namespace LuaBundle

-- The paths that are tried for a reference: the candidates up to the first that is a file.
def Locator.tried (l : Locator) (reference : String) (requester : Path) : List Path :=
  go (l.allCandidates reference requester)
where
  go : List Path → List Path
    | [] => []
    | c :: rest => if l.files.isFile c then [c] else c :: go rest

namespace Builder

-- The paths that are tried for the calls of a file, up to the first call that means no file.
def triedFor (b : Builder) (path : Path) : List StaticCall → List Path
  | [] => []
  | call :: calls =>
    if b.options.isExternal call.literal then b.triedFor path calls
    else
      b.locator.tried call.literal path ++
        match b.locator.locate call.literal path with
        | .error _ => []
        | .ok _ => b.triedFor path calls

theorem turns_follow_lt {b : Builder} {s s' : Survey} {id : ModuleId} {path : Path}
    {pending : List (ModuleId × Path)} {requires : Requires}
    {result : Except BundleError (List Reference)} (hp : s.pending = (id, path) :: pending)
    (hf : b.follow path requires.calls
      ({ s with pending := pending }.warnValueUses path requires.valueUses) = (result, s')) :
    s'.turns b.known < s.turns b.known := by
  have hle := b.turns_follow_le path requires.calls
    ({ s with pending := pending }.warnValueUses path requires.valueUses)
  rw [hf] at hle
  refine Nat.lt_of_le_of_lt hle ?_
  simp [Survey.turns, Survey.warnValueUses, hp]

-- The paths that are looked up from some state of a build on: each file whose turn comes, and what
-- is tried for its calls.
def lookups (b : Builder) (s : Survey) : List Path :=
  match _h : s.pending with
  | [] => []
  | (_, path) :: pending =>
    match b.locator.files.read path with
    | .error _ => [path]
    | .ok source =>
      match Requires.of source with
      | .error _ => [path]
      | .ok requires =>
        match _hf : b.follow path requires.calls
            ({ s with pending := pending }.warnValueUses path requires.valueUses) with
        | (.error _, _) => path :: b.triedFor path requires.calls
        | (.ok _, s') => path :: (b.triedFor path requires.calls ++ b.lookups s')
termination_by s.turns b.known
decreasing_by exact turns_follow_lt _h _hf

end Builder

-- The paths that a build looks up.
def lookups (files : FiniteFiles) (options : Options) (entry : Path) : List Path :=
  entry ::
    match files.canonicalize entry with
    | .error _ => []
    | .ok start =>
      let b := Builder.of files options start
      b.lookups (b.started start)

-- Two file systems that say the same of a path.
structure FileSystem.Agree (files files' : FileSystem) (p : Path) : Prop where
  isFile : files'.isFile p = files.isFile p
  read : files'.read p = files.read p
  canonicalize : files'.canonicalize p = files.canonicalize p

section Congr

variable {files : FileSystem} {l : Locator} {b : Builder} {reference : String} {path : Path}
  {calls : List StaticCall} {s : Survey} {g : Graph}

theorem Locator.locate_onto (h : ∀ p ∈ l.tried reference path, l.files.Agree files p) :
    { l with files := files }.locate reference path = l.locate reference path := by
  have hall : { l with files := files }.allCandidates reference path =
      l.allCandidates reference path := rfl
  unfold locate
  unfold tried at h
  rw [hall]
  generalize l.allCandidates reference path = candidates at h
  induction candidates with
  | nil => rfl
  | cons c rest ih =>
    have hc : l.files.Agree files c := h c (by unfold tried.go; split <;> simp)
    rw [List.find?_cons, List.find?_cons, hc.isFile]
    cases hfile : l.files.isFile c with
    | true => simp only [hc.canonicalize]
    | false =>
      refine ih fun p hp => h p ?_
      rw [tried.go, if_neg (by simp [hfile])]
      exact .tail c hp

-- The same build on other files.
def Builder.onto (b : Builder) (files : FiniteFiles) : Builder where
  root := b.root
  locator := { b.locator with files := files.toFileSystem }
  options := b.options
  known := files.known
  mem_known := files.mem_known

section Onto

variable {files : FiniteFiles}

theorem Builder.follow_onto
    (h : ∀ p ∈ b.triedFor path calls, b.locator.files.Agree files.toFileSystem p) :
    (b.onto files).follow path calls s = b.follow path calls s := by
  have hoptions : (b.onto files).options = b.options := rfl
  have hvisit : (b.onto files).visit = b.visit := rfl
  induction calls generalizing s with
  | nil => rfl
  | cons call calls ih =>
    rw [triedFor] at h
    rw [follow, follow, hoptions, hvisit]
    by_cases he : b.options.isExternal call.literal = true
    case pos =>
      rw [if_pos he] at h
      rw [if_pos he, if_pos he, ih h]
    case neg =>
      rw [if_neg he] at h
      have hlocate : (b.onto files).locator.locate call.literal path =
          b.locator.locate call.literal path :=
        Locator.locate_onto fun p hp => h p (List.mem_append_left _ hp)
      rw [if_neg he, if_neg he, hlocate]
      cases hl : b.locator.locate call.literal path with
      | error => rfl
      | ok target =>
        simp only [hl] at h
        simp only [ih fun p hp => h p (List.mem_append_right _ hp)]

theorem Builder.explore_cons {id : ModuleId} {pending : List (ModuleId × Path)}
    (hp : s.pending = (id, path) :: pending) :
    b.explore g s =
      match b.locator.files.read path with
      | .error e => (.error (.file path e), s)
      | .ok source =>
        match Requires.of source with
        | .error call => (.error (.dynamic path call), s)
        | .ok requires =>
          match b.follow path requires.calls
              ({ s with pending := pending }.warnValueUses path requires.valueUses) with
          | (.error e, s') => (.error e, s')
          | (.ok references, s') => b.explore (g.insert ⟨id, path, source, references⟩) s' := by
  rw [explore.eq_def]
  split
  case h_1 hnil => simp [hp] at hnil
  case h_2 hcons =>
    obtain ⟨⟨rfl, rfl⟩, rfl⟩ := by simpa [hp] using hcons
    cases b.locator.files.read path with
    | error => rfl
    | ok source =>
      dsimp only
      cases Requires.of source with
      | error => rfl
      | ok requires =>
        dsimp only
        split
        case h_1 hf => rw [hf]
        case h_2 hf => rw [hf]

theorem Builder.lookups_cons {id : ModuleId} {pending : List (ModuleId × Path)}
    (hp : s.pending = (id, path) :: pending) :
    b.lookups s =
      match b.locator.files.read path with
      | .error _ => [path]
      | .ok source =>
        match Requires.of source with
        | .error _ => [path]
        | .ok requires =>
          match b.follow path requires.calls
              ({ s with pending := pending }.warnValueUses path requires.valueUses) with
          | (.error _, _) => path :: b.triedFor path requires.calls
          | (.ok _, s') => path :: (b.triedFor path requires.calls ++ b.lookups s') := by
  rw [lookups.eq_def]
  split
  case h_1 hnil => simp [hp] at hnil
  case h_2 hcons =>
    obtain ⟨⟨rfl, rfl⟩, rfl⟩ := by simpa [hp] using hcons
    cases b.locator.files.read path with
    | error => rfl
    | ok source =>
      dsimp only
      cases Requires.of source with
      | error => rfl
      | ok requires =>
        dsimp only
        split
        case h_1 hf => rw [hf]
        case h_2 hf => rw [hf]

-- By induction on the exploration: the files whose turn comes are the same on both sides.
theorem Builder.explore_onto
    (h : ∀ p ∈ b.lookups s, b.locator.files.Agree files.toFileSystem p) :
    (b.onto files).explore g s = b.explore g s := by
  have onto : (b.onto files).locator.files = files.toFileSystem := rfl
  fun_induction b.explore g s with
  | case1 g s hp => rw [explore.eq_def, hp]
  | case2 g s id path pending hp e hr =>
    rw [lookups_cons hp] at h
    simp only [hr] at h
    have hread := (h path List.mem_cons_self).read
    rw [explore_cons hp, onto, hread, hr]
  | case3 g s id path pending hp source hr call hscan =>
    rw [lookups_cons hp] at h
    simp only [hr, hscan] at h
    have hread := (h path List.mem_cons_self).read
    simp only [explore_cons hp, onto, hread, hr, hscan]
  | case4 g s id path pending hp source hr requires hscan s₀ e s' hf =>
    have hs₀ : s₀ = { s with pending := pending }.warnValueUses path requires.valueUses := rfl
    rw [lookups_cons hp] at h
    rw [hs₀] at hf
    simp only [hr, hscan, hf] at h
    obtain ⟨hpath, htried⟩ := List.forall_mem_cons.mp h
    simp only [explore_cons hp, onto, hpath.read, hr, hscan, follow_onto htried, hf]
  | case5 g s id path pending hp source hr requires hscan s₀ references s' hf ih =>
    have hs₀ : s₀ = { s with pending := pending }.warnValueUses path requires.valueUses := rfl
    rw [lookups_cons hp] at h
    rw [hs₀] at hf
    simp only [hr, hscan, hf] at h
    obtain ⟨hpath, h⟩ := List.forall_mem_cons.mp h
    obtain ⟨htried, hrest⟩ := List.forall_mem_append.mp h
    simp only [explore_cons hp, onto, hpath.read, hr, hscan, follow_onto htried, hf, ih hrest]

-- A build does not depend on files that it does not look up.
theorem buildGraph_congr {files' : FiniteFiles} {options : Options} {entry : Path}
    (h : ∀ p ∈ lookups files options entry, files.toFileSystem.Agree files'.toFileSystem p) :
    buildGraph files' options entry = buildGraph files options entry := by
  have hentry := (h entry List.mem_cons_self).canonicalize
  unfold buildGraph
  unfold lookups at h
  rw [hentry]
  cases hstart : files.canonicalize entry with
  | error => rfl
  | ok start =>
    simp only [hstart] at h
    have onto : (Builder.of files options start).onto files' = .of files' options start := rfl
    have hvisit : (Builder.of files' options start).visit =
        (Builder.of files options start).visit := rfl
    have hexplore := fun g => Builder.explore_onto (g := g) fun p hp => h p (.tail entry hp)
    rw [onto] at hexplore
    simp only [hvisit]
    unfold Builder.started at hexplore
    simp only [hexplore]

end Onto

end Congr
end LuaBundle

import LuaBundle.Module.Basic

namespace LuaBundle

-- Where references are looked up: the files, the directories to try after the requiring module's
-- own, and the ending of source files.
structure Locator where
  files : FileSystem
  roots : List Path
  extension : String

namespace Locator

-- A name such as `lib.util`, which stands for a path with a directory for each dot.
def isDotted (reference : String) : Bool :=
  let s := reference.toList
  s.contains '.' && s.head? ≠ some '.' && !s.contains '/' && !s.contains '\\'

def undotted (reference : String) : Path :=
  .ofString (String.ofList (reference.toList.map fun c => if c = '.' then '/' else c))

-- The files a reference may mean under a directory, best first: the file as written, with the
-- ending, and as an `init` file of a directory; a dotted name also with its dots as separators.
def candidates (extension reference : String) (base : Path) : List Path :=
  let ending := "." ++ extension
  let init := Path.ofString ("init" ++ ending)
  let exact := base.join (.ofString reference)
  let nested := if isDotted reference then [base.join (undotted reference)] else []
  [exact, exact.withEnding ending] ++ nested.map (·.withEnding ending) ++
    [exact.join init] ++ nested.map (·.join init)

-- Every file that a reference from `requester` may mean, best first. The empty reference means
-- none.
def allCandidates (l : Locator) (reference : String) (requester : Path) : List Path :=
  if reference.isEmpty then []
  else (requester.parent :: l.roots).flatMap (candidates l.extension reference)

-- The file that a reference means.
def locate (l : Locator) (reference : String) (requester : Path) : Except BundleError Path :=
  match (l.allCandidates reference requester).find? l.files.isFile with
  | none => .error (.unresolved reference requester)
  | some candidate => (l.files.canonicalize candidate).mapError (.file candidate)

-- What a reference leads to has been asked for by its canonical path.
theorem exists_of_locate {l : Locator} {reference : String} {requester path : Path}
    (h : l.locate reference requester = .ok path) :
    ∃ candidate, l.files.canonicalize candidate = .ok path := by
  unfold locate at h
  split at h
  case h_1 => simp at h
  case h_2 candidate hc =>
    cases hq : l.files.canonicalize candidate with
    | error e =>
      rw [hq] at h
      cases h
    | ok q =>
      rw [hq] at h
      exact ⟨candidate, hq.trans (congrArg Except.ok (Except.ok.inj h))⟩

end Locator
end LuaBundle

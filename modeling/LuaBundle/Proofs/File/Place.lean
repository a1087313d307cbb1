import LuaBundle.Proofs.File.Look
import LuaBundle.Proofs.Path.Parent

namespace LuaBundle

-- Where a component leads to from a place. No directory is asked for on the way.
def Location.to (place : Location) : Component → Location
  | .root => []
  | .here => place
  | .up => place.dropLast
  | .name n => place ++ [n]

-- The place that a path is for where there are no links, for those in a directory.
def Path.place (here : Location) (p : Path) : Location :=
  p.components.foldl Location.to here

namespace Tree

variable {t t' t'' : Tree} {place q : Location} {steps : List OsString} {links links' : Nat}
  {creates : Bool} {p : Path}

section Lexical

-- Where a step of a walk leads to.
def pass (place : Location) (s : OsString) : Location :=
  if s = "" ∨ s = "." then place else if s = ".." then place.dropLast else place ++ [s]

theorem pass_of_void {s : OsString} (h : s = "" ∨ s = ".") : pass place s = place :=
  if_pos h

theorem pass_up : pass place ".." = place.dropLast := by
  rw [pass, if_neg (by decide), if_pos rfl]

theorem pass_name {s : OsString} (h : ¬(s = "" ∨ s = ".")) (hup : s ≠ "..") :
    pass place s = place ++ [s] := by
  rw [pass, if_neg h, if_neg hup]

theorem isVoid_iff {segment : List UInt8} :
    Path.isVoid segment ↔ (⟨segment⟩ : OsString) = "" ∨ (⟨segment⟩ : OsString) = "." := by
  rw [Path.isVoid, Bool.or_eq_true, decide_eq_true_iff, decide_eq_true_iff, ← OsString.bytes_inj,
    ← OsString.bytes_inj]
  rfl

theorem pass_segment (place : Location) {segment : List UInt8} (h : Path.isVoid segment = false) :
    pass place ⟨segment⟩ = place.to (Path.Segment.component segment) := by
  unfold Path.Segment.component
  split
  case isTrue hup => subst hup; exact pass_up
  case isFalse hup =>
    exact pass_name (by simp [← isVoid_iff, h]) fun h => hup (congrArg OsString.bytes h)

theorem foldl_pass_segments (place : Location) (segments : List (List UInt8)) :
    (segments.map OsString.mk).foldl pass place =
      ((segments.filter (!Path.isVoid ·)).map Path.Segment.component).foldl Location.to place := by
  induction segments generalizing place with
  | nil => rfl
  | cons segment segments ih =>
    rw [List.map_cons, List.foldl_cons, ih]
    cases hv : Path.isVoid segment with
    | true =>
      rw [List.filter_cons_of_neg (by simp [hv]), pass_of_void (isVoid_iff.mp hv)]
    | false =>
      rw [List.filter_cons_of_pos (by simp [hv]), List.map_cons, List.foldl_cons,
        pass_segment place hv]

-- The place of a path is where its segments lead to.
theorem place_eq_foldl_pass (here : Location) (p : Path) :
    p.place here = (segments p).foldl pass (start here p) := by
  rw [segments, foldl_pass_segments]
  cases hp : Path.parts p.bytes with
  | mk start body =>
    have hstart : start.foldl Location.to here = Tree.start here p := by
      unfold Tree.start
      rcases Path.parts_cases p.bytes with ⟨r, hs, hq⟩ | ⟨r, hs, -, hq⟩ | ⟨hs, hq⟩
      all_goals obtain ⟨rfl, -⟩ := Prod.mk.inj (hp.symm.trans hq)
      case inl => exact (if_pos (by simp [Path.isAbsolute, hs])).symm
      case inr.inl =>
        have hdot : Path.dot ≠ Path.slash := by decide
        exact (if_neg (by simp [Path.isAbsolute, hs, hdot])).symm
      case inr.inr => exact (if_neg (by simpa [Path.isAbsolute] using hs)).symm
    rw [Path.place, Path.components_of_parts hp, List.foldl_append, hstart,
      ← Path.pieces_of_parts hp]
    rfl

end Lexical

section Walk

-- Where there are no links a walk ends, if anywhere, where its steps lead to.
theorem Linkless.eq_of_walk (ht : t.Linkless) (h : t.walk creates links place steps = .ok q) :
    q = steps.foldl pass place := by
  induction steps generalizing place with
  | nil =>
    rw [walk] at h
    exact (Except.ok.inj h).symm
  | cons s steps ih =>
    rw [List.foldl_cons]
    by_cases hd : t.hasDirectory place = true
    case neg => rw [walk_not_directory (by simpa using hd)] at h; cases h
    by_cases hvoid : s = "" ∨ s = "."
    case pos =>
      rw [walk_skip hd hvoid] at h
      rw [pass_of_void hvoid]
      exact ih h
    by_cases hup : s = ".."
    case pos =>
      subst hup
      rw [walk_up hd] at h
      rw [pass_up]
      exact ih h
    rw [walk_name ht hd hvoid hup] at h
    rw [pass_name hvoid hup]
    split at h
    case isTrue => cases h
    split at h
    case isTrue => cases h
    split at h
    case isTrue => exact ih h
    split at h
    case isFalse => cases h
    case isTrue hnew =>
      obtain rfl : steps = [] := by simpa using (Bool.and_eq_true_iff.mp hnew).2
      exact (Except.ok.inj h).symm

theorem Linkless.eq_place (ht : t.Linkless) (h : t.locate creates p = .ok q) :
    q = p.place t.here :=
  (ht.eq_of_walk (walk_of_locate h)).trans (place_eq_foldl_pass t.here p).symm

end Walk

section Keeps

-- A tree in which whatever was there still is, and as a directory if it was one.
structure Keeps (t t' : Tree) : Prop where
  here : t'.here = t.here
  hasDirectory : ∀ q, t.hasDirectory q → t'.hasDirectory q
  isSome : ∀ q, (t.get? q).isSome → (t'.get? q).isSome

theorem Keeps.trans (h : t.Keeps t') (h' : t'.Keeps t'') : t.Keeps t'' where
  here := h'.here.trans h.here
  hasDirectory q hq := h'.hasDirectory q (h.hasDirectory q hq)
  isSome q hq := h'.isSome q (h.isSome q hq)

-- A walk that led somewhere leads there again when there is something.
theorem Keeps.walk (h : t.Keeps t') (ht : t.Linkless) (ht' : t'.Linkless)
    (hw : t.walk creates links place steps = .ok q) (hq : (t'.get? q).isSome) :
    t'.walk false links' place steps = .ok q := by
  induction steps generalizing place with
  | nil =>
    rw [Tree.walk] at hw ⊢
    exact hw
  | cons s steps ih =>
    by_cases hd : t.hasDirectory place = true
    case neg => rw [walk_not_directory (by simpa using hd)] at hw; cases hw
    have hd' := h.hasDirectory place hd
    by_cases hvoid : s = "" ∨ s = "."
    case pos =>
      rw [walk_skip hd hvoid] at hw
      rw [walk_skip hd' hvoid]
      exact ih hw
    by_cases hup : s = ".."
    case pos =>
      subst hup
      rw [walk_up hd] at hw
      rw [walk_up hd']
      exact ih hw
    rw [walk_name ht hd hvoid hup] at hw
    rw [walk_name ht' hd' hvoid hup, if_neg (by simp)]
    split at hw
    case isTrue => cases hw
    split at hw
    case isTrue => cases hw
    case isFalse hlong =>
      rw [if_neg hlong]
      split at hw
      case isTrue hsome =>
        rw [if_pos (h.isSome _ hsome)]
        exact ih hw
      split at hw
      case isFalse => cases hw
      case isTrue hnew =>
        obtain rfl : steps = [] := by simpa using (Bool.and_eq_true_iff.mp hnew).2
        obtain rfl := Except.ok.inj hw
        rw [if_pos hq, Tree.walk]

theorem Keeps.locate (h : t.Keeps t') (ht : t.Linkless) (ht' : t'.Linkless)
    (hl : t.locate creates p = .ok q) (hq : (t'.get? q).isSome) : t'.locate false p = .ok q := by
  have hwalk : t'.walk false maxLinks (Tree.start t.here p) (segments p) = .ok q :=
    h.walk ht ht' (walk_of_locate hl) hq
  rw [locate_eq] at hl ⊢
  cases hr : refusal? p with
  | some e =>
    rw [hr] at hl
    cases hl
  | none =>
    simp only [h.here, hwalk]
    rfl

theorem bytes_of_locate {content : ByteArray} (hl : t.locate false p = .ok q)
    (hfile : t.get? q = some (.file content)) : t.bytes p = .ok content := by
  rw [bytes, hl]
  simp only [bind, Except.bind, hfile]
  rfl

end Keeps

end Tree
end LuaBundle

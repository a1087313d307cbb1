import Mathlib.Tactic.SplitIfs
import LuaBundle.Proofs.File.Tree

namespace LuaBundle.Tree

variable {t t' : Tree} {place q : Location} {s : OsString} {rest steps : List OsString} {links : Nat}
  {creates : Bool} {p : Path}

-- A tree without links.
def Linkless (t : Tree) : Prop :=
  ∀ place target, t.get? place ≠ some (.link target)

theorem Linkless.put {e : Entry} (ht : t.Linkless) (hne : place ≠ [])
    (he : ∀ target, e ≠ .link target) : (t.put place e).Linkless := by
  intro q target
  rw [get?_put hne]
  split
  case isTrue => exact fun h => he target (Option.some.inj h)
  case isFalse => exact ht q target

section Walk

theorem walk_not_directory (h : t.hasDirectory place = false) :
    t.walk creates links place (s :: rest) = .error .notDirectory := by
  rw [walk, if_pos (by simp [h])]

theorem walk_skip (h : t.hasDirectory place) (hs : s = "" ∨ s = ".") :
    t.walk creates links place (s :: rest) = t.walk creates links place rest := by
  rw [walk, if_neg (by simp [h]), if_pos (by simpa using hs)]

theorem walk_up (h : t.hasDirectory place) :
    t.walk creates links place (".." :: rest) = t.walk creates links place.dropLast rest := by
  rw [walk, if_neg (by simp [h]), if_neg (by decide), if_pos rfl]

-- A step by a name.
theorem walk_name (hl : t.Linkless) (h : t.hasDirectory place) (hs : ¬(s = "" ∨ s = "."))
    (hup : s ≠ "..") :
    t.walk creates links place (s :: rest) =
      if creates && !rest.isEmpty && rest.all (· = "") then .error .isDirectory
      else if maxName < s.bytes.length then .error .nameTooLong
      else if (t.get? (place ++ [s])).isSome then t.walk creates links (place ++ [s]) rest
      else if creates && rest.isEmpty then .ok (place ++ [s])
      else .error .noEntry := by
  rw [walk, if_neg (by simp [h]), if_neg (by simpa using hs), if_neg hup]
  refine ite_congr rfl (fun _ => rfl) fun _ => ite_congr rfl (fun _ => rfl) fun _ => ?_
  split
  case h_1 hnone => simp [hnone]
  case h_2 target hlink => exact absurd hlink (hl _ target)
  case h_3 e _ he => simp [he]

end Walk

section Refusal

-- Why a path cannot be used as it stands, whatever the tree.
def refusal? (p : Path) : Option FileError :=
  if p.bytes.contains 0 then some .nulInPath
  else if p.isEmpty then some (.system .noEntry)
  else if pathLimit ≤ p.bytes.length then some (.system .nameTooLong)
  else none

theorem refusal?_eq_none : refusal? p = none ↔ p.bytes.contains 0 = false ∧
    p.isEmpty = false ∧ ¬pathLimit ≤ p.bytes.length := by
  unfold refusal?
  split_ifs <;> simp_all

theorem locate_eq (t : Tree) (creates : Bool) (p : Path) :
    t.locate creates p =
      match refusal? p with
      | some e => .error e
      | none => (t.walk creates maxLinks (start t.here p) (segments p)).mapError .system := by
  unfold locate refusal?
  split_ifs <;> rfl

end Refusal

section Visits

-- The places that a walk looks at where there are no links, the one from which it starts first.
def visits (t : Tree) (place : Location) : List OsString → List Location
  | [] => [place]
  | s :: rest =>
    if !t.hasDirectory place then [place]
    else if s = "" ∨ s = "." then t.visits place rest
    else if s = ".." then place :: t.visits place.dropLast rest
    else if maxName < s.bytes.length then [place]
    else if (t.get? (place ++ [s])).isSome then place :: t.visits (place ++ [s]) rest
    else [place, place ++ [s]]

-- The places that are looked at for a path: every front part of the path leads to one. A path that
-- is refused as it stands leads nowhere.
def looksAt (t : Tree) (p : Path) : List Location :=
  if (refusal? p).isSome then [] else t.visits (start t.here p) (segments p)

theorem mem_visits_start (t : Tree) (place : Location) (steps : List OsString) :
    place ∈ t.visits place steps := by
  fun_induction visits t place steps with
  | case3 _ _ _ _ _ ih => exact ih
  | _ => exact List.mem_cons_self

-- A walk that looks at nothing in which two trees differ is the same in both, and so is what is
-- found at its end. By induction on the steps, of which links would make more.
theorem walk_congr (links : Nat) (hl : t.Linkless) (hl' : t'.Linkless)
    (h : ∀ q ∈ t.visits place steps, t'.get? q = t.get? q) :
    t'.walk creates links place steps = t.walk creates links place steps ∧
      ∀ q, t.walk creates links place steps = .ok q → t'.get? q = t.get? q := by
  have hdir : t'.hasDirectory place = t.hasDirectory place := by
    rw [hasDirectory, hasDirectory, h place (t.mem_visits_start place steps)]
  fun_induction visits t place steps with
  | case1 place =>
    simp only [walk, Except.ok.injEq, forall_eq', true_and]
    exact h place (List.mem_singleton_self place)
  | case2 place s rest hd =>
    have hd : t.hasDirectory place = false := by simpa using hd
    rw [walk_not_directory hd, walk_not_directory (hdir.trans hd)]
    simp
  | case3 place s rest hd hs ih =>
    have hd : t.hasDirectory place := by simpa using hd
    rw [walk_skip hd hs, walk_skip (hdir.trans hd) hs]
    exact ih h hdir
  | case4 place rest hd =>
    have hd : t.hasDirectory place := by simpa using hd
    rename_i hs ih
    obtain ⟨-, hrest⟩ := List.forall_mem_cons.mp h
    rw [walk_up hd, walk_up (hdir.trans hd)]
    refine ih hrest ?_
    rw [hasDirectory, hasDirectory, hrest _ (t.mem_visits_start _ _)]
  | case5 place s rest hd hs hup hlong =>
    have hd : t.hasDirectory place := by simpa using hd
    rw [walk_name hl hd hs hup, walk_name hl' (hdir.trans hd) hs hup, if_pos hlong, if_pos hlong]
    refine ⟨rfl, fun q hq => ?_⟩
    split at hq <;> cases hq
  | case6 place s rest hd hs hup hlong he ih =>
    have hd : t.hasDirectory place := by simpa using hd
    obtain ⟨-, hrest⟩ := List.forall_mem_cons.mp h
    have he' : t'.get? (place ++ [s]) = t.get? (place ++ [s]) :=
      hrest _ (t.mem_visits_start _ _)
    obtain ⟨hwalk, hfound⟩ := ih hrest (by rw [hasDirectory, hasDirectory, he'])
    rw [walk_name hl hd hs hup, walk_name hl' (hdir.trans hd) hs hup, he', if_neg hlong,
      if_neg hlong, if_pos he, if_pos he, hwalk]
    refine ⟨rfl, fun q hq => ?_⟩
    split at hq
    case isTrue => cases hq
    case isFalse => exact hfound q hq
  | case7 place s rest hd hs hup hlong he =>
    have hd : t.hasDirectory place := by simpa using hd
    have he' : t'.get? (place ++ [s]) = t.get? (place ++ [s]) := h _ (by simp)
    rw [walk_name hl hd hs hup, walk_name hl' (hdir.trans hd) hs hup, he', if_neg hlong,
      if_neg hlong, if_neg he, if_neg he]
    refine ⟨rfl, fun q hq => ?_⟩
    -- only one who creates ends here, at the new name
    split at hq
    case isTrue => cases hq
    case isFalse =>
      split at hq
      case isTrue => exact Except.ok.inj hq ▸ he'
      case isFalse => cases hq

end Visits

section Agree

-- Two trees without links in which a path is looked up in the same way.
structure Agree (t t' : Tree) (p : Path) : Prop where
  here : t'.here = t.here
  linkless : t.Linkless
  linkless' : t'.Linkless
  get? : ∀ q ∈ t.looksAt p, t'.get? q = t.get? q

theorem Agree.locate_eq (h : Agree t t' p) (creates : Bool) :
    t'.locate creates p = t.locate creates p ∧
      ∀ q, t.locate creates p = .ok q → t'.get? q = t.get? q := by
  have hget := h.get?
  rw [looksAt] at hget
  rw [Tree.locate_eq, Tree.locate_eq]
  cases hr : refusal? p with
  | some e => simp
  | none =>
    rw [hr, if_neg (by simp)] at hget
    obtain ⟨hwalk, hfound⟩ := walk_congr maxLinks h.linkless h.linkless' hget
    dsimp only
    rw [h.here, hwalk]
    refine ⟨rfl, fun q hq => hfound q ?_⟩
    cases hw : t.walk creates maxLinks (Tree.start t.here p) (segments p) with
    | error e =>
      rw [hw] at hq
      cases hq
    | ok q' =>
      rw [hw] at hq
      cases hq
      rfl

theorem Agree.find?_eq (h : Agree t t' p) : t'.find? p = t.find? p := by
  obtain ⟨hl, hget⟩ := h.locate_eq false
  unfold find?
  rw [hl]
  split
  case h_1 q hq => exact hget q hq
  case h_2 => rfl

theorem Agree.isFile_eq (h : Agree t t' p) : t'.isFile p = t.isFile p := by
  rw [isFile, isFile, h.find?_eq]

theorem Agree.canonicalize_eq (h : Agree t t' p) : t'.canonicalize p = t.canonicalize p := by
  rw [canonicalize, canonicalize, (h.locate_eq false).1]

theorem Agree.read_eq (h : Agree t t' p) : t'.read p = t.read p := by
  obtain ⟨hl, hget⟩ := h.locate_eq false
  have hbytes : t'.bytes p = t.bytes p := by
    unfold bytes
    rw [hl]
    cases hq : t.locate false p with
    | error => rfl
    | ok q =>
      simp only [bind, Except.bind]
      rw [hget q hq]
  rw [read, read, hbytes]

end Agree
end LuaBundle.Tree

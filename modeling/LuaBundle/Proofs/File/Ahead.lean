import LuaBundle.Proofs.Except
import LuaBundle.Proofs.File.Grow

namespace LuaBundle

open LuaBundle.Path (IsName ofNames)

namespace Tree

variable {v v' v'' s s' s'' t : Tree} {place above q : Location} {names : List OsString} {n : OsString}
  {p : Path} {content : ByteArray}

section Effect

-- One tree is as another on the way to a place, but for directories that it has already.
def Ahead (v s : Tree) (place : Location) : Prop :=
  ∀ q, q <+: place → s.get? q = v.get? q ∨ v.get? q = none ∧ s.get? q = some .directory

-- What the same deed for the sake of one place does to two trees at any place.
inductive Effect (v v' s s' : Tree) (place q : Location) : Prop
  | kept (hv : v'.get? q = v.get? q) (hs : s'.get? q = s.get? q)
  | made (hq : q <+: place) (hne : q ≠ place) (hnone : v.get? q = none)
      (hv : v'.get? q = some .directory) (hs : s'.get? q = some .directory)
  | filed (hq : q = place) (hd : v.hasDirectory place = false) (h : s'.get? q = v'.get? q)

structure Alike (place : Location) (v v' s s' : Tree) : Prop where
  orderly : v'.Orderly
  orderly' : s'.Orderly
  here : v'.here = v.here
  here' : s'.here = s.here
  effect : ∀ q, Effect v v' s s' place q

theorem Alike.refl (hv : v.Orderly) (hs : s.Orderly) : Alike place v v s s :=
  ⟨hv, hs, rfl, rfl, fun _ => .kept rfl rfl⟩

end Effect

section Grow

theorem enter_ahead (h : s.get? (place ++ [n]) = v.get? (place ++ [n]) ∨
      v.get? (place ++ [n]) = none ∧ s.get? (place ++ [n]) = some .directory) :
    (∃ e, v.enter place n = .error e ∧ s.enter place n = .error e) ∨
      ∃ v₁ s₁, v.enter place n = .ok v₁ ∧ s.enter place n = .ok s₁ := by
  unfold enter
  by_cases hlong : maxName < n.bytes.length
  case pos => exact .inl ⟨_, if_pos hlong, if_pos hlong⟩
  rw [if_neg hlong, if_neg hlong]
  obtain h | ⟨hv, hs⟩ := h
  case inr =>
    rw [hv, hs]
    exact .inr ⟨_, _, rfl, rfl⟩
  rw [h]
  cases v.get? (place ++ [n]) with
  | none => exact .inr ⟨_, _, rfl, rfl⟩
  | some e =>
    cases e with
    | directory => exact .inr ⟨_, _, rfl, rfl⟩
    | file => exact .inl ⟨_, rfl, rfl⟩
    | link => exact .inl ⟨_, rfl, rfl⟩

-- What entering directories on the way to a place does to two trees at any place.
inductive Grown (v v' s s' : Tree) (place q : Location) : Prop
  | kept (hv : v'.get? q = v.get? q) (hs : s'.get? q = s.get? q)
  | made (hq : q <+: place) (hnone : v.get? q = none)
      (hv : v'.get? q = some .directory) (hs : s'.get? q = some .directory)

theorem Grown.trans (h : Grown v v' s s' place q) (h' : Grown v' v'' s' s'' place q) :
    Grown v v'' s s'' place q := by
  cases h' with
  | kept hv' hs' =>
    cases h with
    | kept hv hs => exact .kept (hv'.trans hv) (hs'.trans hs)
    | made hq hnone hv hs => exact .made hq hnone (hv'.trans hv) (hs'.trans hs)
  | made hq hnone' hv' hs' =>
    cases h with
    | kept hv => exact .made hq (hv ▸ hnone') hv' hs'
    | made _ _ hv => cases hnone'.symm.trans hv

theorem Ahead.enter (h : Ahead v s place) (hp : above ++ [n] <+: place)
    (hv : v.enter above n = .ok v') (hs : s.enter above n = .ok s') :
    Ahead v' s' place ∧ ∀ q, Grown v v' s s' place q := by
  have hgetv := get?_of_enter hv
  have hgets := get?_of_enter hs
  refine ⟨fun q hq => ?_, fun q => ?_⟩
  case refine_1 =>
    rw [hgetv, hgets]
    split
    case isTrue => exact .inl rfl
    case isFalse => exact h q hq
  case refine_2 =>
    by_cases hq : q = above ++ [n]
    case neg => exact .kept (by rw [hgetv, if_neg hq]) (by rw [hgets, if_neg hq])
    subst hq
    have hv' := (hgetv _).trans (if_pos rfl)
    have hs' := (hgets _).trans (if_pos rfl)
    obtain ⟨-, ⟨hdir, -⟩ | ⟨hnone, -⟩⟩ := enter_cases hv
    case inr => exact .made hp hnone hv' hs'
    obtain hsame | ⟨hnone, -⟩ := h _ hp
    case inl => exact .kept (hv'.trans hdir.symm) (hs'.trans (hsame.trans hdir).symm)
    case inr => cases hdir.symm.trans hnone

-- Directories that are there already make no difference to entering them.
theorem Ahead.grow (h : Ahead v s (place ++ names)) :
    (s.grow place names).2 = (v.grow place names).2 ∧
      ∀ q, Grown v (v.grow place names).1 s (s.grow place names).1 (place ++ names) q := by
  induction names generalizing place v s with
  | nil => exact ⟨rfl, fun q => .kept rfl rfl⟩
  | cons n names ih =>
    rw [List.append_cons] at h ⊢
    have hn : place ++ [n] <+: place ++ [n] ++ names := List.prefix_append _ _
    rw [Tree.grow, Tree.grow]
    obtain ⟨e, hv, hs⟩ | ⟨v₁, s₁, hv, hs⟩ := enter_ahead (h _ hn)
    case inl =>
      rw [hv, hs]
      exact ⟨rfl, fun q => .kept rfl rfl⟩
    case inr =>
      rw [hv, hs]
      obtain ⟨hahead, hgrown⟩ := h.enter hn hv hs
      obtain ⟨hfailure, hmore⟩ := ih hahead
      exact ⟨hfailure, fun q => (hgrown q).trans (hmore q)⟩

theorem Ahead.blame (h : Ahead v s names) : s.blame names = v.blame names := by
  have hfile : (s.get? names).any Entry.isFile = (v.get? names).any Entry.isFile := by
    obtain h | ⟨hv, hs⟩ := h names List.prefix_rfl
    · rw [h]
    · rw [hv, hs]
      rfl
  funext e
  rw [Tree.blame, Tree.blame, hfile]

theorem Ahead.makeDirectories (h : Ahead v s names) (hv : v.Orderly) (hs : s.Orderly)
    (hn : ∀ m ∈ names, IsName m) :
    (s.makeDirectories (ancestors (ofNames names))).2 =
        (v.makeDirectories (ancestors (ofNames names))).2 ∧
      Alike (names ++ [n]) v (v.makeDirectories (ancestors (ofNames names))).1
        s (s.makeDirectories (ancestors (ofNames names))).1 ∧
      ((v.makeDirectories (ancestors (ofNames names))).2 = none →
        (v.makeDirectories (ancestors (ofNames names))).1.hasDirectory names ∧
          (s.makeDirectories (ancestors (ofNames names))).1.hasDirectory names) := by
  have hempty : (ofNames names).isEmpty = false := by simp [Path.isEmpty, Path.bytes_ofNames]
  cases hr : refusal? (ofNames names) with
  | some e =>
    rw [makeDirectories_of_refusal hr hempty, makeDirectories_of_refusal hr hempty]
    exact ⟨rfl, .refl hv hs, by simp⟩
  | none =>
    have hroot (t : Tree) : t.hasDirectory [] := rfl
    have hahead : Ahead v s ([] ++ names) := h
    obtain ⟨hfailure, heffect⟩ := hahead.grow
    rw [makeDirectories_ancestors hv hn hr, makeDirectories_ancestors hs hn hr, hfailure, h.blame]
    refine ⟨rfl, ⟨hv.grow (hroot v) names, hs.grow (hroot s) names, v.here_grow [] names,
      s.here_grow [] names, fun q => ?_⟩, fun hnone => ?_⟩
    case refine_1 =>
      cases heffect q with
      | kept hv' hs' => exact .kept hv' hs'
      | made hq hnone hv' hs' =>
        refine .made (hq.trans (List.prefix_append _ _)) ?_ hnone hv' hs'
        rintro rfl
        exact absurd hq.length_le (by simp)
    case refine_2 =>
      have hnone : (v.grow [] names).2 = none := Option.map_eq_none_iff.mp hnone
      exact ⟨(hv.walk_grow 0 (hroot v) hn hnone).1,
        (hs.walk_grow 0 (hroot s) hn (hfailure.trans hnone)).1⟩

end Grow

section File

-- A file at a place, unless something stands against it.
def filed (t : Tree) (place : Location) : Except FileError ByteArray → Tree × Option FileError
  | .ok content => (t.put place (.file content), none)
  | .error e => (t, some e)

-- What a copy of a file holds.
def copied (t : Tree) (source destination : Path) : Except FileError ByteArray := do
  let place ← t.locate false source
  match t.get? place with
  | some (.file content) =>
    let target ← t.locateFile destination
    return if target = place then .empty else content
  | _ => throw .notRegular

theorem isPrefix_of_mem_visits (hn : ∀ m ∈ names, IsName m) (hq : q ∈ t.visits place names) :
    q <+: place ++ names := by
  have hplace (place rest : Location) : place <+: place ++ rest := List.prefix_append _ _
  fun_induction visits t place names with
  | case1 => simp_all
  | case2 => exact List.mem_singleton.mp hq ▸ hplace _ _
  | case3 _ s _ _ hs => exact absurd hs (isName_ne (hn s List.mem_cons_self)).1
  | case4 => exact absurd rfl (isName_ne (hn ".." List.mem_cons_self)).2
  | case5 => exact List.mem_singleton.mp hq ▸ hplace _ _
  | case6 place s rest _ _ _ _ _ ih =>
    rcases List.mem_cons.mp hq with rfl | hq
    case inl => exact hplace _ _
    case inr => simpa using ih (List.forall_mem_cons.mp hn).2 hq
  | case7 place s rest =>
    have hq : q = place ∨ q = place ++ [s] := by simpa using hq
    rcases hq with rfl | rfl
    case inl => exact hplace _ _
    case inr => simp

theorem isPrefix_of_mem_looksAt (hn : ∀ m ∈ names, IsName m) (hq : q ∈ t.looksAt (ofNames names)) :
    q <+: names := by
  unfold looksAt at hq
  split at hq
  case isTrue => cases hq
  case isFalse =>
    rw [start_ofNames] at hq
    cases names with
    | nil =>
      have hs : segments (ofNames []) = ("" : OsString) :: ("" : OsString) :: [] := by decide
      have hvisits : t.visits [] ["", ""] = [[]] := by simp [visits, hasDirectory, get?, Entry.isDirectory]
      rw [hs, hvisits] at hq
      exact List.mem_singleton.mp hq ▸ List.prefix_rfl
    | cons m names =>
      rw [segments_ofNames hn (by simp)] at hq
      have hvisits : t.visits [] ("" :: m :: names) = t.visits [] (m :: names) := by
        rw [visits]
        simp [hasDirectory, get?, Entry.isDirectory]
      rw [hvisits] at hq
      exact isPrefix_of_mem_visits hn hq

theorem Agree.locateFile_eq (h : Agree v s p) : s.locateFile p = v.locateFile p := by
  obtain ⟨hl, hget⟩ := h.locate_eq true
  unfold locateFile
  rw [hl]
  cases hq : v.locate true p with
  | error => rfl
  | ok q =>
    have hdir : s.hasDirectory q = v.hasDirectory q := by
      rw [hasDirectory, hasDirectory, hget q hq]
    simp only [bind, Except.bind, hdir]

theorem of_locateFile (hv : v.Linkless) (hn : ∀ m ∈ names, IsName m)
    (h : v.locateFile (ofNames names) = .ok q) : q = names ∧ v.hasDirectory q = false := by
  obtain ⟨hl, hd⟩ := locate_of_locateFile h
  have hw := walk_of_locate hl
  rw [start_ofNames, walk_ofNames hn] at hw
  exact ⟨eq_of_walk_names hv hn hw, hd⟩

-- What a path leads to is the same in two trees.
def Found (v s : Tree) (p : Path) : Prop :=
  s.locate false p = v.locate false p ∧ ∀ q, v.locate false p = .ok q → s.get? q = v.get? q

theorem Found.copied_eq {source destination : Path} (h : Found v s source)
    (hl : s.locateFile destination = v.locateFile destination) :
    s.copied source destination = v.copied source destination := by
  obtain ⟨hlocate, hget⟩ := h
  unfold copied
  rw [hlocate, hl]
  cases hq : v.locate false source with
  | error => rfl
  | ok q =>
    simp only [bind, Except.bind]
    rw [hget q hq]

theorem filed_alike (hv : v.Orderly) (hs : s.Orderly) (hdv : v.hasDirectory names)
    (hds : s.hasDirectory names) (hlast : s.get? (names ++ [n]) = v.get? (names ++ [n]))
    {r : Except FileError ByteArray}
    (hr : ∀ content, r = .ok content → v.hasDirectory (names ++ [n]) = false) :
    (s.filed (names ++ [n]) r).2 = (v.filed (names ++ [n]) r).2 ∧
      Alike (names ++ [n]) v (v.filed (names ++ [n]) r).1 s (s.filed (names ++ [n]) r).1 := by
  cases r with
  | error e => exact ⟨rfl, .refl hv hs⟩
  | ok content =>
    have hnv := hr content rfl
    have hns : s.hasDirectory (names ++ [n]) = false := by rw [hasDirectory, hlast]; exact hnv
    refine ⟨rfl, hv.put hdv hnv (by simp), hs.put hds hns (by simp), rfl, rfl, fun q => ?_⟩
    by_cases hq : q = names ++ [n]
    case pos =>
      refine .filed hq hnv ?_
      simp only [filed]
      rw [get?_put (by simp), get?_put (by simp), if_pos hq, if_pos hq]
    case neg =>
      simp only [filed]
      refine .kept ?_ ?_ <;> rw [get?_put (by simp), if_neg hq]

end File

end Tree

namespace Change

variable {t v s : Tree} {names : Location} {n : OsString} {p : Path} {c : Change} {q : Location}

-- The path of a file that a change reads.
def source? : Change → Option Path
  | copy source _ => some source
  | _ => none

-- A change that makes a file of a path.
inductive Files (p : Path) : Change → Prop
  | write {content : ByteArray} : Files p (.write p content)
  | copy {source : Path} : Files p (.copy source p)

theorem apply_write {content : ByteArray} (ht : t.Linkless) (hn : ∀ m ∈ names, IsName m) :
    (write (ofNames names) content).apply t =
      t.filed names ((t.locateFile (ofNames names)).map fun _ => content) := by
  rw [apply, Tree.write]
  cases hl : t.locateFile (ofNames names) with
  | error => rfl
  | ok q =>
    obtain ⟨rfl, -⟩ := Tree.of_locateFile ht hn hl
    rfl

theorem apply_copy {source : Path} (ht : t.Linkless) (hn : ∀ m ∈ names, IsName m) :
    (copy source (ofNames names)).apply t =
      t.filed names (t.copied source (ofNames names)) := by
  rw [apply, Tree.copy, Tree.copied]
  cases t.locate false source with
  | error => rfl
  | ok place =>
    simp only [bind, Except.bind]
    cases t.get? place with
    | none => rfl
    | some e =>
      cases e with
      | directory => rfl
      | link => rfl
      | file content =>
        cases hl : t.locateFile (ofNames names) with
        | error => rfl
        | ok q =>
          obtain ⟨rfl, -⟩ := Tree.of_locateFile ht hn hl
          rfl

theorem exists_locateFile_of_copied {source destination : Path} {content : ByteArray}
    (h : t.copied source destination = .ok content) : ∃ q, t.locateFile destination = .ok q := by
  obtain ⟨place, -, h⟩ := exists_of_bind_eq_ok h
  split at h
  case h_1 =>
    obtain ⟨q, hq, -⟩ := exists_of_bind_eq_ok h
    exact ⟨q, hq⟩
  case h_2 => cases h

theorem Files.alike (hc : Files (ofNames (names ++ [n])) c) (hv : v.Orderly) (hs : s.Orderly)
    (hhere : s.here = v.here) (hn : ∀ m ∈ names ++ [n], IsName m) (hdv : v.hasDirectory names)
    (hds : s.hasDirectory names) (hlast : s.get? (names ++ [n]) = v.get? (names ++ [n]))
    (hsource : ∀ source, c.source? = some source → Tree.Found v s source) :
    (c.apply s).2 = (c.apply v).2 ∧
      Tree.Alike (names ++ [n]) v (c.apply v).1 s (c.apply s).1 := by
  have hagree : Tree.Agree v s (ofNames (names ++ [n])) := by
    refine ⟨hhere, hv.linkless, hs.linkless, fun q hq => ?_⟩
    rcases List.prefix_concat_iff.mp (Tree.isPrefix_of_mem_looksAt hn hq) with rfl | hq
    case inl => exact hlast
    case inr =>
      have same {t : Tree} (ht : t.Orderly) (hd : t.hasDirectory names) :
          t.get? q = some .directory := by
        have hd' := Tree.hasDirectory_iff.mp hd
        by_cases heq : q = names
        case pos => exact heq ▸ hd'
        case neg =>
          exact Tree.hasDirectory_iff.mp
            (ht.hasDirectory_of_prefix (Option.isSome_of_eq_some hd') hq heq)
      rw [same hv hdv, same hs hds]
  have hl := hagree.locateFile_eq
  cases hc with
  | write =>
    rw [apply_write hv.linkless hn, apply_write hs.linkless hn, hl]
    refine Tree.filed_alike hv hs hdv hds hlast fun content hr => ?_
    cases hq : v.locateFile (ofNames (names ++ [n])) with
    | error => rw [hq] at hr; cases hr
    | ok q =>
      obtain ⟨rfl, hdir⟩ := Tree.of_locateFile hv.linkless hn hq
      exact hdir
  | copy =>
    rw [apply_copy hv.linkless hn, apply_copy hs.linkless hn, (hsource _ rfl).copied_eq hl]
    refine Tree.filed_alike hv hs hdv hds hlast fun content hr => ?_
    obtain ⟨q, hq⟩ := exists_locateFile_of_copied hr
    obtain ⟨rfl, hdir⟩ := Tree.of_locateFile hv.linkless hn hq
    exact hdir

end Change
end LuaBundle

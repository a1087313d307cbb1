import Mathlib.Data.List.Induction
import LuaBundle.Proofs.File.Place

namespace LuaBundle.Tree

open LuaBundle.Path (IsName ofNames)

variable {t t' : Tree} {place q P : Location} {s n : OsString} {rest names before behind : List OsString}
  {links : Nat} {creates : Bool} {p : Path} {e : Entry} {cause : Errno}

-- A tree of directories and files, in which whatever there is lies in a directory.
structure Orderly (t : Tree) : Prop where
  linkless : t.Linkless
  rooted : ∀ place n e, t.get? (place ++ [n]) = some e → t.hasDirectory place

section Put

theorem hasDirectory_iff : t.hasDirectory q ↔ t.get? q = some .directory := by
  unfold hasDirectory
  cases t.get? q with
  | none => simp
  | some e => cases e <;> simp [Entry.isDirectory]

theorem hasDirectory_put (hne : place ≠ []) (q : Location) :
    (t.put place e).hasDirectory q = if q = place then e.isDirectory else t.hasDirectory q := by
  rw [hasDirectory, get?_put hne]
  split
  · rfl
  · rfl

theorem Orderly.put (ht : t.Orderly) (hd : t.hasDirectory place)
    (hn : t.hasDirectory (place ++ [n]) = false) (he : ∀ target, e ≠ .link target) :
    (t.put (place ++ [n]) e).Orderly where
  linkless := ht.linkless.put (by simp) he
  rooted q m e' hq := by
    rw [get?_put (by simp)] at hq
    rw [hasDirectory_put (by simp)]
    split at hq
    case isTrue heq =>
      obtain ⟨rfl, rfl⟩ : q = place ∧ m = n := by simpa using heq
      rwa [if_neg (by simp)]
    case isFalse =>
      have hq := ht.rooted q m e' hq
      split
      case isTrue heq => simp [← heq, hq] at hn
      case isFalse => exact hq

-- Entries of which each lies in a directory and none is a link.
theorem Orderly.of_entries (h : ∀ e ∈ t.entries,
    (e.2.isDirectory || e.2.isFile) ∧ t.hasDirectory e.1.dropLast) : t.Orderly := by
  have mem {place : Location} {e : Entry} (hl : t.entries.lookup place = some e) :
      (place, e) ∈ t.entries := by
    obtain ⟨before, after, hsplit, -⟩ := List.lookup_eq_some_iff.mp hl
    exact hsplit ▸ List.mem_append_cons_self
  refine ⟨fun place target hlink => ?_, fun place n e he => ?_⟩
  · cases place with
    | nil => cases hlink
    | cons s place => cases (h _ (mem hlink)).1
  · have hl : t.entries.lookup (place ++ [n]) = some e := by
      rwa [get?] at he
      simp
    simpa using (h _ (mem hl)).2

-- Below what is no directory there is nothing.
theorem Orderly.get?_append (ht : t.Orderly) (h : t.hasDirectory place = false) (hne : rest ≠ []) :
    t.get? (place ++ rest) = none := by
  induction rest using List.reverseRecOn with
  | nil => exact absurd rfl hne
  | append_singleton rest n ih =>
    rw [← List.append_assoc, ← Option.not_isSome_iff_eq_none, Option.isSome_iff_exists]
    rintro ⟨e, he⟩
    have hd := ht.rooted _ n e he
    cases rest with
    | nil => simp [h] at hd
    | cons s rest => simp [hasDirectory, ih (by simp)] at hd

theorem Orderly.hasDirectory_of_prefix (ht : t.Orderly) (h : (t.get? place).isSome)
    (hq : q <+: place) (hne : q ≠ place) : t.hasDirectory q := by
  obtain ⟨rest, rfl⟩ := hq
  cases hd : t.hasDirectory q with
  | true => rfl
  | false =>
    rw [ht.get?_append hd (by simpa using hne)] at h
    cases h

end Put

section Walk

theorem isName_ne (h : IsName s) : ¬(s = "" ∨ s = ".") ∧ s ≠ ".." := by
  obtain ⟨hn, hup⟩ := step_of_isName h
  exact ⟨by simpa using hn, hup⟩

theorem walk_isName (ht : t.Linkless) (h : t.hasDirectory place) (hs : IsName s) :
    t.walk false links place (s :: rest) =
      if maxName < s.bytes.length then .error .nameTooLong
      else if (t.get? (place ++ [s])).isSome then t.walk false links (place ++ [s]) rest
      else .error .noEntry := by
  obtain ⟨hn, hup⟩ := isName_ne hs
  rw [walk_name ht h hn hup]
  simp

theorem foldl_pass_names (hn : ∀ s ∈ names, IsName s) : names.foldl pass place = place ++ names := by
  induction names generalizing place with
  | nil => simp
  | cons s names ih =>
    obtain ⟨hs, hn⟩ := List.forall_mem_cons.mp hn
    obtain ⟨hvoid, hup⟩ := isName_ne hs
    rw [List.foldl_cons, pass_name hvoid hup, ih hn, List.append_assoc, List.singleton_append]

-- Names lead to what they name, if anywhere.
theorem eq_of_walk_names (ht : t.Linkless) (hn : ∀ s ∈ names, IsName s)
    (h : t.walk creates links place names = .ok q) : q = place ++ names :=
  (ht.eq_of_walk h).trans (foldl_pass_names hn)

end Walk

section Grow

-- A directory in another one: the one that is there, or else a new one.
def enter (t : Tree) (place : Location) (n : OsString) : Except FileError Tree :=
  if maxName < n.bytes.length then .error (.system .nameTooLong)
  else
    match t.get? (place ++ [n]) with
    | none => .ok (t.put (place ++ [n]) .directory)
    | some .directory => .ok t
    | some _ => .error (.system .notDirectory)

-- Directories one in another, from a directory on, until one cannot be entered.
def grow (t : Tree) (place : Location) : List OsString → Tree × Option FileError
  | [] => (t, none)
  | n :: rest =>
    match t.enter place n with
    | .ok t => t.grow (place ++ [n]) rest
    | .error e => (t, some e)

theorem grow_append (t : Tree) (place : Location) (before behind : List OsString) :
    t.grow place (before ++ behind) =
      match t.grow place before with
      | (t, none) => t.grow (place ++ before) behind
      | (t, some e) => (t, some e) := by
  induction before generalizing t place with
  | nil => simp [grow]
  | cons n before ih =>
    rw [List.cons_append, grow, grow]
    cases t.enter place n with
    | error e => rfl
    | ok t => simp [ih]

theorem grow_singleton (t : Tree) (place : Location) (n : OsString) :
    t.grow place [n] =
      match t.enter place n with
      | .ok t => (t, none)
      | .error e => (t, some e) := by
  rw [grow]
  rfl

theorem enter_cases (h : t.enter place n = .ok t') : ¬maxName < n.bytes.length ∧
    (t.get? (place ++ [n]) = some .directory ∧ t' = t ∨
      t.get? (place ++ [n]) = none ∧ t' = t.put (place ++ [n]) .directory) := by
  unfold enter at h
  split at h
  case isTrue => cases h
  case isFalse hlong =>
    split at h
    case h_1 hnone => exact ⟨hlong, .inr ⟨hnone, (Except.ok.inj h).symm⟩⟩
    case h_2 hdir => exact ⟨hlong, .inl ⟨hdir, (Except.ok.inj h).symm⟩⟩
    case h_3 => cases h

theorem get?_of_enter (h : t.enter place n = .ok t') (q : Location) :
    t'.get? q = if q = place ++ [n] then some .directory else t.get? q := by
  obtain ⟨-, ⟨hdir, rfl⟩ | ⟨-, rfl⟩⟩ := enter_cases h
  case inr => exact get?_put (by simp) q
  case inl =>
    split
    case isTrue heq => rw [heq, hdir]
    case isFalse => rfl

theorem hasDirectory_of_enter (h : t.enter place n = .ok t') : t'.hasDirectory (place ++ [n]) :=
  hasDirectory_iff.mpr (by rw [get?_of_enter h, if_pos rfl])

theorem Orderly.enter (ht : t.Orderly) (hd : t.hasDirectory place)
    (h : t.enter place n = .ok t') : t'.Orderly := by
  obtain ⟨-, ⟨-, rfl⟩ | ⟨hnone, rfl⟩⟩ := enter_cases h
  · exact ht
  · exact ht.put hd (by rw [hasDirectory, hnone]; rfl) (by simp)

-- What was there before stays, and new are directories on the way only.
theorem get?_grow (t : Tree) (place : Location) (names : List OsString) (q : Location) :
    (t.grow place names).1.get? q = t.get? q ∨
      q <+: place ++ names ∧ t.get? q = none ∧
        (t.grow place names).1.get? q = some .directory := by
  induction names generalizing t place with
  | nil => exact .inl rfl
  | cons n names ih =>
    rw [grow]
    cases h : t.enter place n with
    | error => exact .inl rfl
    | ok t₁ =>
      have ih := ih t₁ (place ++ [n])
      rw [List.append_assoc, List.singleton_append] at ih
      obtain ⟨-, ⟨-, rfl⟩ | ⟨hnone, rfl⟩⟩ := enter_cases h
      case inl => exact ih
      case inr =>
        rw [get?_put (by simp)] at ih
        by_cases hq : q = place ++ [n]
        case neg => simpa only [if_neg hq] using ih
        case pos =>
          rw [if_pos hq] at ih
          obtain ih | ⟨-, hsome, -⟩ := ih
          case inr => cases hsome
          case inl => exact .inr ⟨⟨names, by simp [hq]⟩, hq ▸ hnone, ih⟩

theorem hasDirectory_grow (h : t.hasDirectory q) (place : Location) (names : List OsString) :
    (t.grow place names).1.hasDirectory q := by
  rw [hasDirectory] at h ⊢
  obtain heq | ⟨-, hnone, -⟩ := t.get?_grow place names q
  · rwa [heq]
  · simp [hnone] at h

theorem here_grow (t : Tree) (place : Location) (names : List OsString) :
    (t.grow place names).1.here = t.here := by
  induction names generalizing t place with
  | nil => rfl
  | cons n names ih =>
    rw [grow]
    cases h : t.enter place n with
    | error => rfl
    | ok t₁ =>
      refine (ih t₁ _).trans ?_
      obtain ⟨-, ⟨-, rfl⟩ | ⟨-, rfl⟩⟩ := enter_cases h <;> rfl

theorem Orderly.grow (ht : t.Orderly) (hd : t.hasDirectory place) (names : List OsString) :
    (t.grow place names).1.Orderly := by
  induction names generalizing t place with
  | nil => exact ht
  | cons n names ih =>
    rw [Tree.grow]
    cases h : t.enter place n with
    | error => exact ht
    | ok t₁ => exact ih (ht.enter hd h) (hasDirectory_of_enter h)

end Grow

section Way

-- How a walk by names ends, and what becomes of it when the names are entered instead.
inductive Way (t : Tree) (place : Location) (names : List OsString) : Except Errno Location → Prop
  | arrives (hd : t.hasDirectory (place ++ names)) (hg : t.grow place names = (t, none)) :
      Way t place names (.ok (place ++ names))
  | file (hd : t.hasDirectory (place ++ names) = false)
      (hg : t.grow place names = (t, some (.system .notDirectory))) :
      Way t place names (.ok (place ++ names))
  | gap (hnone : t.get? (place ++ names) = none) : Way t place names (.error .noEntry)
  | wall (hnone : t.get? (place ++ names) = none)
      (hg : t.grow place names = (t, some (.system .notDirectory))) :
      Way t place names (.error .notDirectory)
  | long (hg : t.grow place names = (t, some (.system .nameTooLong))) :
      Way t place names (.error .nameTooLong)

theorem Way.cons {end' : Except Errno Location} (he : t.enter place n = .ok t)
    (h : t.Way (place ++ [n]) names end') : t.Way place (n :: names) end' := by
  have hg : t.grow place (n :: names) = t.grow (place ++ [n]) names := by rw [Tree.grow, he]
  have hplace : place ++ n :: names = (place ++ [n]) ++ names := by simp
  cases h with
  | arrives hd hg' => exact hplace ▸ .arrives (hplace ▸ hd) (hg.trans hg')
  | file hd hg' => exact hplace ▸ .file (hplace ▸ hd) (hg.trans hg')
  | gap hnone => exact .gap (hplace ▸ hnone)
  | wall hnone hg' => exact .wall (hplace ▸ hnone) (hg.trans hg')
  | long hg' => exact .long (hg.trans hg')

theorem Orderly.way (ht : t.Orderly) (hd : t.hasDirectory place) (hn : ∀ s ∈ names, IsName s) :
    t.Way place names (t.walk false links place names) := by
  induction names generalizing place with
  | nil =>
    have h : t.Way place [] (.ok (place ++ [])) := .arrives (by simpa using hd) rfl
    simpa [walk] using h
  | cons n names ih =>
    obtain ⟨hname, hn⟩ := List.forall_mem_cons.mp hn
    rw [walk_isName ht.linkless hd hname]
    by_cases hlong : maxName < n.bytes.length
    case pos =>
      rw [if_pos hlong]
      exact .long (by rw [Tree.grow, Tree.enter, if_pos hlong])
    case neg =>
      have henter : t.enter place n = match t.get? (place ++ [n]) with
          | none => .ok (t.put (place ++ [n]) .directory)
          | some .directory => .ok t
          | some _ => .error (.system .notDirectory) := by rw [Tree.enter, if_neg hlong]
      have hplace : place ++ n :: names = (place ++ [n]) ++ names := by simp
      rw [if_neg hlong]
      cases he : t.get? (place ++ [n]) with
      | none =>
        rw [if_neg (by simp)]
        refine .gap ?_
        cases names with
        | nil => exact he
        | cons => exact hplace ▸ ht.get?_append (by rw [hasDirectory, he]; rfl) (by simp)
      | some e =>
        rw [if_pos Option.isSome_some]
        rw [he] at henter
        cases e with
        | link target => exact absurd he (ht.linkless _ target)
        | directory => exact .cons henter (ih (by rw [hasDirectory, he]; rfl) hn)
        | file content =>
          have hfile : t.hasDirectory (place ++ [n]) = false := by rw [hasDirectory, he]; rfl
          have hg : t.grow place (n :: names) = (t, some (.system .notDirectory)) := by
            rw [Tree.grow, henter]
          cases names with
          | nil =>
            rw [walk]
            exact .file hfile hg
          | cons =>
            rw [walk_not_directory hfile]
            exact .wall (hplace ▸ ht.get?_append hfile (by simp)) hg

-- Where all names are entered, they lead there.
theorem Orderly.walk_grow (ht : t.Orderly) (links : Nat) (hd : t.hasDirectory place)
    (hn : ∀ s ∈ names, IsName s) (h : (t.grow place names).2 = none) :
    (t.grow place names).1.hasDirectory (place ++ names) ∧
      (t.grow place names).1.walk false links place names = .ok (place ++ names) := by
  induction names generalizing t place with
  | nil => exact ⟨by simpa [Tree.grow] using hd, by simp [walk]⟩
  | cons n names ih =>
    obtain ⟨hname, hn⟩ := List.forall_mem_cons.mp hn
    have hplace : place ++ n :: names = (place ++ [n]) ++ names := by simp
    rw [Tree.grow] at h ⊢
    cases he : t.enter place n with
    | error => simp [he] at h
    | ok t₁ =>
      simp only [he] at h ⊢
      have ht₁ := ht.enter hd he
      have hdir := hasDirectory_of_enter he
      obtain ⟨hlast, hwalk⟩ := ih ht₁ hdir hn h
      have ht' := ht₁.grow hdir names
      have hsome := hasDirectory_iff.mp (hasDirectory_grow hdir (place ++ [n]) names)
      rw [hplace, walk_isName ht'.linkless (ht'.rooted place n _ hsome) hname,
        if_neg (enter_cases he).1, if_pos (Option.isSome_of_eq_some hsome), hwalk]
      exact ⟨hlast, rfl⟩

end Way

section Directories

variable {place : Location}

theorem start_ofNames (place : Location) (names : List OsString) :
    Tree.start place (ofNames names) = [] :=
  if_pos (Path.isAbsolute_ofNames names)

theorem segments_ofNames (h : ∀ s ∈ names, IsName s) (hne : names ≠ []) :
    segments (ofNames names) = ("" : OsString) :: names := by
  rw [← Location.path_eq_ofNames, segments_path h hne]

theorem walk_ofNames (h : ∀ s ∈ names, IsName s) :
    t.walk creates links [] (segments (ofNames names)) = t.walk creates links [] names := by
  cases names with
  | nil =>
    have hs : segments (ofNames []) = ("" : OsString) :: ("" : OsString) :: [] := by decide
    rw [hs, walk_void rfl, walk_void rfl]
  | cons n names => rw [segments_ofNames h (by simp), walk_void rfl]

theorem makeDirectory_eq (hp : refusal? p = none) (hl : lastStep? p = some (before, n)) :
    t.makeDirectory p =
      match t.walk false maxLinks (start t.here p) before with
      | .error cause => .error (.system cause)
      | .ok parent =>
        if !t.hasDirectory parent then .error (.system .notDirectory)
        else if n = "." || n = ".." then .error (.system .alreadyExists)
        else if maxName < n.bytes.length then .error (.system .nameTooLong)
        else if (t.get? (parent ++ [n])).isSome then .error (.system .alreadyExists)
        else .ok (t.put (parent ++ [n]) .directory) := by
  obtain ⟨hnul, hempty, hlimit⟩ := refusal?_eq_none.mp hp
  rw [makeDirectory, if_neg (Bool.eq_false_iff.mp hnul), if_neg (by simp [hempty]), if_neg hlimit]
  simp only [hl]
  cases t.walk false maxLinks (start t.here p) before with
  | error => rfl
  | ok parent =>
    simp only [Except.mapError, bind, Except.bind]
    split
    · rfl
    split
    · rfl
    split
    · rfl
    split <;> rfl

theorem makeDirectory_snoc (h : ∀ s ∈ names ++ [n], IsName s)
    (hp : refusal? (ofNames (names ++ [n])) = none) :
    t.makeDirectory (ofNames (names ++ [n])) =
      match t.walk false maxLinks [] names with
      | .error cause => .error (.system cause)
      | .ok parent =>
        if !t.hasDirectory parent then .error (.system .notDirectory)
        else if maxName < n.bytes.length then .error (.system .nameTooLong)
        else if (t.get? (parent ++ [n])).isSome then .error (.system .alreadyExists)
        else .ok (t.put (parent ++ [n]) .directory) := by
  obtain ⟨hn, hup⟩ := isName_ne (h n (by simp))
  obtain ⟨hvoid, hdot⟩ := not_or.mp hn
  have hlast : lastStep? (ofNames (names ++ [n])) = some (("" : OsString) :: names, n) := by
    rw [lastStep?, segments_ofNames h (by simp)]
    simp [hvoid]
  have hroot : t.hasDirectory [] := rfl
  have hspecial : (decide (n = ".") || decide (n = "..")) = false := by simp [hdot, hup]
  rw [makeDirectory_eq hp hlast, start_ofNames, walk_void hroot]
  simp only [hspecial, Bool.false_eq_true, if_false]

theorem ancestors_snoc (h : ∀ s ∈ names ++ [n], IsName s) :
    ancestors (ofNames (names ++ [n])) =
      ofNames (names ++ [n]) :: ancestors (ofNames names) := by
  have hnames : ∀ s ∈ names, IsName s := fun s hs => h s (List.mem_append_left _ hs)
  have hlength : (Component.root :: (names ++ [n]).map Component.name).length - 1 =
      names.length + 1 := by simp
  have hfirst : (Component.root :: (names ++ [n]).map Component.name).take (names.length + 1) =
      .root :: names.map .name := by simp
  rw [ancestors, ancestors, Path.components_ofNames h, Path.components_ofNames hnames]
  simp only [hlength]
  rw [List.range_succ, List.reverse_concat, List.map_cons, hfirst]
  refine congrArg _ (congrArg₂ List.cons rfl ?_)
  rw [List.length_cons, List.length_map, Nat.add_sub_cancel]
  refine List.map_congr_left fun m hm => congrArg _ ?_
  have hm : m < names.length := by simpa using hm
  rw [List.take_succ_cons, List.take_succ_cons, List.map_append,
    List.take_append_of_le_length (by simpa using hm.le)]

-- A path that can be used as it stands can be so without its last name.
theorem refusal?_snoc (h : refusal? (ofNames (names ++ [n])) = none) :
    refusal? (ofNames names) = none := by
  obtain ⟨s, hs⟩ : ∃ s, (ofNames (names ++ [n])).bytes = (ofNames names).bytes ++ s := by
    rw [Path.bytes_ofNames_append names (List.cons_ne_nil n [])]
    cases names using List.reverseRecOn with
    | nil => exact ⟨n.bytes, by simp [Path.bytes_ofNames]⟩
    | append_singleton front m =>
      rw [Path.bytes_ofNames_append front (List.cons_ne_nil m [])]
      exact ⟨Path.slash :: n.bytes, by simp⟩
  obtain ⟨hnul, hempty, hlimit⟩ := refusal?_eq_none.mp h
  rw [hs] at hnul hlimit
  rw [List.length_append] at hlimit
  have hshort : ¬pathLimit ≤ (ofNames names).bytes.length := by omega
  refine refusal?_eq_none.mpr ⟨?_, ?_, hshort⟩
  · rw [List.contains_append, Bool.or_eq_false_iff] at hnul
    exact hnul.1
  · simp [Path.isEmpty, Path.bytes_ofNames]

-- The error of a path to a file tells of the file, not of a directory that is missing.
def blame (t : Tree) (place : Location) (e : FileError) : FileError :=
  if e = .system .notDirectory ∧ (t.get? place).any Entry.isFile then .system .alreadyExists else e

theorem blame_of_none (h : t.get? place = none) : t.blame place = id := by
  funext e
  simp [blame, h]

theorem isDirectory_ofNames (h : ∀ s ∈ names, IsName s) (hp : refusal? (ofNames names) = none) :
    t.isDirectory (ofNames names) =
      match t.walk false maxLinks [] names with
      | .ok place => t.hasDirectory place
      | .error _ => false := by
  rw [isDirectory, find?, locate_eq, hp, start_ofNames, walk_ofNames h]
  cases t.walk false maxLinks [] names <;> rfl

theorem walk_append (ht : t.Linkless) (place : Location) (before behind : List OsString) :
    t.walk false links place (before ++ behind) =
      (t.walk false links place before).bind fun place => t.walk false links place behind := by
  induction before generalizing place with
  | nil => simp [walk, Except.bind]
  | cons s before ih =>
    rw [List.cons_append]
    by_cases hd : t.hasDirectory place = true
    case neg =>
      have hd : t.hasDirectory place = false := by simpa using hd
      rw [walk_not_directory hd, walk_not_directory hd]
      rfl
    by_cases hvoid : s = "" ∨ s = "."
    case pos => rw [walk_skip hd hvoid, walk_skip hd hvoid, ih]
    by_cases hup : s = ".."
    case pos => rw [hup, walk_up hd, walk_up hd, ih]
    rw [walk_name ht hd hvoid hup, walk_name ht hd hvoid hup]
    simp only [Bool.false_and, Bool.false_eq_true, if_false]
    by_cases hlong : maxName < s.bytes.length
    case pos =>
      rw [if_pos hlong, if_pos hlong]
      rfl
    rw [if_neg hlong, if_neg hlong]
    split
    · exact ih _
    · rfl

theorem makeDirectory_of_refusal {e : FileError} (h : refusal? p = some e) :
    t.makeDirectory p = .error e := by
  unfold refusal? at h
  unfold makeDirectory
  split_ifs at h ⊢ <;> cases h <;> rfl

theorem isDirectory_of_refusal {e : FileError} (h : refusal? p = some e) :
    t.isDirectory p = false := by
  rw [isDirectory, find?, locate_eq, h]
  rfl

-- One try to make a directory, which may be there already.
def attempt (t : Tree) (p : Path) : Tree × Option FileError :=
  match t.makeDirectory p with
  | .ok t => (t, none)
  | .error e => (t, if t.isDirectory p then none else some e)

theorem makeDirectories_cons {around : List Path}
    (h : t.makeDirectory p ≠ .error (.system .noEntry)) :
    t.makeDirectories (p :: around) = t.attempt p := by
  rw [makeDirectories, attempt]
  split
  case h_1 hm => rw [hm]
  case h_2 hm => exact absurd hm h
  case h_3 hm => rw [hm]

theorem makeDirectories_gap {around : List Path}
    (h : t.makeDirectory p = .error (.system .noEntry)) :
    t.makeDirectories (p :: around) =
      match t.makeDirectories around with
      | (t, some e) => (t, some e)
      | (t, none) => t.attempt p := by
  rw [makeDirectories, h]
  rfl

theorem attempt_of_error {e : FileError} (h : t.makeDirectory p = .error e)
    (hd : t.isDirectory p = false) : t.attempt p = (t, some e) := by
  rw [attempt, h]
  simp [hd]

theorem makeDirectories_of_refusal {e : FileError} (h : refusal? p = some e)
    (hempty : p.isEmpty = false) : t.makeDirectories (ancestors p) = (t, some e) := by
  have hne : e ≠ .system .noEntry := by
    rintro rfl
    rw [refusal?, hempty] at h
    split_ifs at h <;> simp_all
  have hm := makeDirectory_of_refusal (t := t) h
  rw [ancestors, makeDirectories_cons (by simpa [hm] using hne),
    attempt_of_error hm (isDirectory_of_refusal h)]

-- Where the last directory but one is there, the try enters the last one.
theorem attempt_snoc (ht : t.Orderly) (h : ∀ s ∈ names ++ [n], IsName s)
    (hp : refusal? (ofNames (names ++ [n])) = none) (hd : t.hasDirectory names)
    (hw : t.walk false maxLinks [] names = .ok names) :
    t.makeDirectory (ofNames (names ++ [n])) ≠ .error (.system .noEntry) ∧
      t.attempt (ofNames (names ++ [n])) =
        ((t.grow names [n]).1, (t.grow names [n]).2.map (t.blame (names ++ [n]))) := by
  have hmake := makeDirectory_snoc (t := t) h hp
  have hdir := isDirectory_ofNames (t := t) h hp
  rw [hw] at hmake
  rw [walk_append ht.linkless, hw, Except.bind, walk_isName ht.linkless hd (h n (by simp))] at hdir
  simp only [hd, Bool.not_true, Bool.false_eq_true, if_false] at hmake
  rw [grow_singleton, enter]
  by_cases hlong : maxName < n.bytes.length
  case pos =>
    rw [if_pos hlong] at hmake hdir
    rw [if_pos hlong, attempt_of_error hmake hdir, hmake]
    exact ⟨by simp, rfl⟩
  rw [if_neg hlong] at hmake hdir
  rw [if_neg hlong]
  cases he : t.get? (names ++ [n]) with
  | none =>
    rw [he, if_neg (by simp)] at hmake
    rw [attempt, hmake]
    exact ⟨by simp, rfl⟩
  | some e =>
    rw [he, if_pos Option.isSome_some] at hmake
    rw [he, if_pos Option.isSome_some, walk] at hdir
    rw [hmake, attempt, hmake]
    refine ⟨by simp, ?_⟩
    simp only [hdir, hasDirectory, he]
    cases e with
    | link target => exact absurd he (ht.linkless _ target)
    | directory => rfl
    | file content => simp [blame, he, Entry.isDirectory, Entry.isFile]

theorem Orderly.get?_snoc (ht : t.Orderly) (hnone : t.get? names = none) (n : OsString) :
    t.get? (names ++ [n]) = none :=
  ht.get?_append (by rw [hasDirectory, hnone]; rfl) (by simp)

-- An error that stops the walk is the error of the whole, and not on account of a file at its end.
theorem makeDirectories_stopped {e : FileError} (h : ∀ s ∈ names ++ [n], IsName s)
    (hm : t.makeDirectory (ofNames (names ++ [n])) = .error e) (hne : e ≠ .system .noEntry)
    (hd : t.isDirectory (ofNames (names ++ [n])) = false) (hg : t.grow [] names = (t, some e))
    (hb : e ≠ .system .notDirectory ∨ t.get? (names ++ [n]) = none) :
    t.makeDirectories (ancestors (ofNames (names ++ [n]))) =
      ((t.grow [] (names ++ [n])).1,
        (t.grow [] (names ++ [n])).2.map (t.blame (names ++ [n]))) := by
  rw [ancestors_snoc h, makeDirectories_cons (by simpa [hm] using hne), attempt_of_error hm hd,
    grow_append, hg]
  rcases hb with hb | hb
  · simp [blame, hb]
  · simp [blame_of_none hb]

-- Where the last directory but one is missing it is made first, and the last one in it.
theorem makeDirectories_missing (ht : t.Orderly) (h : ∀ s ∈ names ++ [n], IsName s)
    (hp : refusal? (ofNames (names ++ [n])) = none)
    (hm : t.makeDirectory (ofNames (names ++ [n])) = .error (.system .noEntry))
    (hnone : t.get? names = none)
    (hmade : t.makeDirectories (ancestors (ofNames names)) =
      ((t.grow [] names).1, (t.grow [] names).2.map (t.blame names))) :
    t.makeDirectories (ancestors (ofNames (names ++ [n]))) =
      ((t.grow [] (names ++ [n])).1,
        (t.grow [] (names ++ [n])).2.map (t.blame (names ++ [n]))) := by
  have hroot : t.hasDirectory [] := rfl
  have hn : ∀ s ∈ names, IsName s := fun s hs => h s (List.mem_append_left _ hs)
  have hlast := ht.get?_snoc hnone n
  have hgrown := ht.grow hroot names
  have hopen := ht.walk_grow maxLinks hroot hn
  have hlast' := t.get?_grow [] names (names ++ [n])
  rw [ancestors_snoc h, makeDirectories_gap hm, hmade, grow_append, blame_of_none hnone,
    blame_of_none hlast, Option.map_id, id]
  generalize t.grow [] names = grown at hgrown hopen hlast' ⊢
  obtain ⟨t', e | -⟩ := grown
  case some => rfl
  obtain ⟨hd', hw'⟩ := hopen rfl
  have hlast' : t'.get? (names ++ [n]) = none := by
    obtain heq | ⟨hfront, -⟩ := hlast'
    case inl => exact heq.trans hlast
    case inr => exact absurd hfront.length_le (by simp)
  simp only [(attempt_snoc hgrown h hp hd' hw').2, blame_of_none hlast', Option.map_id]
  rfl

-- What is done from the innermost directory outwards and back comes to entering the directories
-- from the root on. By induction on the path from its end.
theorem makeDirectories_ancestors (ht : t.Orderly) (h : ∀ s ∈ names, IsName s)
    (hp : refusal? (ofNames names) = none) :
    t.makeDirectories (ancestors (ofNames names)) =
      ((t.grow [] names).1, (t.grow [] names).2.map (t.blame names)) := by
  induction names using List.reverseRecOn with
  | nil =>
    have hroot : ancestors (ofNames []) = [ofNames []] := by decide
    have hmake : t.makeDirectory (ofNames []) = .error (.system .alreadyExists) := rfl
    have hdir : t.isDirectory (ofNames []) := by
      rw [isDirectory_ofNames (by simp) hp, walk]
      rfl
    rw [hroot, makeDirectories_cons (by simp [hmake]), attempt, hmake]
    simp only [hdir, if_true]
    rfl
  | append_singleton names n ih =>
    have hn : ∀ s ∈ names, IsName s := fun s hs => h s (List.mem_append_left _ hs)
    have hmake := makeDirectory_snoc (t := t) h hp
    have hdir := isDirectory_ofNames (t := t) h hp
    have hway : t.Way [] names (t.walk false maxLinks [] names) := ht.way rfl hn
    rw [walk_append ht.linkless] at hdir
    generalize hw : t.walk false maxLinks [] names = w at hmake hdir hway
    cases hway with
    | arrives hd hg =>
      obtain ⟨hm, hattempt⟩ := attempt_snoc ht h hp hd hw
      rw [ancestors_snoc h, makeDirectories_cons hm, hattempt, grow_append, hg]
      rfl
    | file hd hg =>
      have hd : t.hasDirectory names = false := hd
      refine makeDirectories_stopped (e := .system .notDirectory) h ?_ (by simp) ?_ hg (.inr ?_)
      · simpa [hd] using hmake
      · simpa [Except.bind, walk_not_directory hd] using hdir
      · exact ht.get?_append hd (by simp)
    | gap hnone => exact makeDirectories_missing ht h hp hmake hnone (ih hn (refusal?_snoc hp))
    | wall hnone hg =>
      exact makeDirectories_stopped h hmake (by simp) hdir hg (.inr (ht.get?_snoc hnone n))
    | long hg => exact makeDirectories_stopped h hmake (by simp) hdir hg (.inl (by simp))

end Directories
end LuaBundle.Tree

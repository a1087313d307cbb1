import LuaBundle.Proofs.File.Ahead

namespace LuaBundle

open LuaBundle.Path (IsName ofNames)

namespace Tree

variable {t u v v' s s' : Tree} {D place q : Location} {us : List Tree} {places : List Location}
  {p : Path}

section Within

-- The places that can change where files are put below a directory: those below it, and those that
-- are missing on the way to it. What is a directory stays one.
def Open (t : Tree) (D q : Location) : Prop :=
  t.hasDirectory q = false ∧ (D <+: q ∧ q ≠ D ∨ q <+: D ∧ t.get? q = none)

instance (t : Tree) (D q : Location) : Decidable (t.Open D q) :=
  inferInstanceAs (Decidable (_ ∧ (_ ∨ _)))

theorem open_of_none (hq : q <+: place) (hD : D <+: place) (hnone : t.get? q = none) :
    t.Open D q := by
  refine ⟨by rw [hasDirectory, hnone]; rfl, ?_⟩
  by_cases hqD : q <+: D
  case pos => exact .inr ⟨hqD, hnone⟩
  case neg =>
    refine .inl ⟨(List.prefix_or_prefix_of_prefix hq hD).resolve_left hqD, ?_⟩
    rintro rfl
    exact hqD List.prefix_rfl

-- What a tree has become by files put below a directory.
structure Within (t : Tree) (D : Location) (v : Tree) : Prop where
  orderly : v.Orderly
  here : v.here = t.here
  get? : ∀ q, ¬t.Open D q → v.get? q = t.get? q

theorem Within.refl (ht : t.Orderly) : t.Within D t :=
  ⟨ht, rfl, fun _ _ => rfl⟩

theorem Within.alike (hv : t.Within D v) (hs : t.Within D s) (h : Alike place v v' s s')
    (hD : D <+: place) (hne : place ≠ D) : t.Within D v' ∧ t.Within D s' := by
  have closed {q : Location} (hq : ¬t.Open D q) : v'.get? q = v.get? q ∧ s'.get? q = s.get? q := by
    cases h.effect q with
    | kept hv' hs' => exact ⟨hv', hs'⟩
    | made hfront _ hnone =>
      exact absurd (open_of_none hfront hD ((hv.get? q hq).symm.trans hnone)) hq
    | filed heq hdir =>
      have hdir : t.hasDirectory q = false := by
        rw [hasDirectory, ← hv.get? q hq, heq]
        exact hdir
      exact absurd ⟨hdir, .inl (heq ▸ ⟨hD, hne⟩)⟩ hq
  exact ⟨⟨h.orderly, h.here.trans hv.here, fun q hq => (closed hq).1.trans (hv.get? q hq)⟩,
    ⟨h.orderly', h.here'.trans hs.here, fun q hq => (closed hq).2.trans (hs.get? q hq)⟩⟩

theorem Within.agree (ht : t.Orderly) (hv : t.Within D v) (hp : ∀ q ∈ t.looksAt p, ¬t.Open D q) :
    Agree t v p :=
  ⟨hv.here, ht.linkless, hv.orderly.linkless, fun q hq => hv.get? q (hp q hq)⟩

theorem Within.found (ht : t.Orderly) (hv : t.Within D v) (hs : t.Within D s)
    (hp : ∀ q ∈ t.looksAt p, ¬t.Open D q) : Found v s p := by
  obtain ⟨hlv, hgv⟩ := (hv.agree ht hp).locate_eq false
  obtain ⟨hls, hgs⟩ := (hs.agree ht hp).locate_eq false
  refine ⟨hls.trans hlv.symm, fun q hq => ?_⟩
  rw [hlv] at hq
  exact (hgs q hq).trans (hgv q hq).symm

end Within

section Merged

-- A tree in which everything has happened that happened to each of several trees.
structure Merged (t : Tree) (us : List Tree) (s : Tree) : Prop where
  kept : ∀ q, (∀ u ∈ us, u.get? q = t.get? q) → s.get? q = t.get? q
  changed : ∀ u ∈ us, ∀ q, u.get? q ≠ t.get? q → s.get? q = u.get? q

-- What happened to a tree left a place alone but for directories on the way.
def Spares (t u : Tree) (place : Location) : Prop :=
  ∀ q, q <+: place → u.get? q = t.get? q ∨
    q ≠ place ∧ t.get? q = none ∧ u.get? q = some .directory

theorem Merged.nil (t : Tree) : t.Merged [] t :=
  ⟨fun _ _ => rfl, by simp⟩

theorem Merged.cons_self (h : t.Merged us s) : t.Merged (t :: us) s where
  kept q hq := h.kept q fun u hu => hq u (.tail _ hu)
  changed u hu q hq := by
    rcases List.mem_cons.mp hu with rfl | hu
    case inl => exact absurd rfl hq
    case inr => exact h.changed u hu q hq

theorem Merged.ahead (h : t.Merged (v :: us) s) (hus : ∀ u ∈ us, t.Spares u place)
    (hq : q <+: place) : s.get? q = v.get? q ∨
      q ≠ place ∧ v.get? q = none ∧ s.get? q = some .directory := by
  by_cases hv : v.get? q = t.get? q
  case neg => exact .inl (h.changed v List.mem_cons_self q hv)
  by_cases hall : ∀ u ∈ us, u.get? q = t.get? q
  case pos => exact .inl ((h.kept q (List.forall_mem_cons.mpr ⟨hv, hall⟩)).trans hv.symm)
  case neg =>
    simp only [not_forall] at hall
    obtain ⟨u, hu, hne⟩ := hall
    obtain heq | ⟨hplace, hnone, hdir⟩ := hus u hu q hq
    case inl => exact absurd heq hne
    case inr =>
      exact .inr ⟨hplace, hv.trans hnone, (h.changed u (.tail _ hu) q hne).trans hdir⟩

theorem Merged.alike (h : t.Merged (v :: us) s) (hus : ∀ u ∈ us, t.Spares u place)
    (ha : Alike place v v' s s') : t.Merged (v' :: us) s' where
  kept q hq := by
    obtain ⟨hv', hall⟩ := List.forall_mem_cons.mp hq
    cases ha.effect q with
    | kept hv hs => exact hs.trans (h.kept q (List.forall_mem_cons.mpr ⟨hv.symm.trans hv', hall⟩))
    | made _ _ _ hv hs => exact hs.trans (hv.symm.trans hv')
    | filed _ _ heq => exact heq.trans hv'
  changed u hu q hne := by
    cases ha.effect q with
    | kept hv hs =>
      rcases List.mem_cons.mp hu with rfl | hu
      case inl => exact hs.trans ((h.changed v List.mem_cons_self q (hv ▸ hne)).trans hv.symm)
      case inr => exact hs.trans (h.changed u (.tail _ hu) q hne)
    | made hfront _ _ hv hs =>
      rcases List.mem_cons.mp hu with rfl | hu
      case inl => exact hs.trans hv.symm
      case inr =>
        obtain heq | ⟨-, -, hdir⟩ := hus u hu q hfront
        case inl => exact absurd heq hne
        case inr => exact hs.trans hdir.symm
    | filed hplace _ heq =>
      rcases List.mem_cons.mp hu with rfl | hu
      case inl => exact heq
      case inr =>
        obtain heq | ⟨hne', -⟩ := hus u hu q (hplace ▸ List.prefix_rfl)
        case inl => exact absurd heq hne
        case inr => exact absurd hplace hne'

-- Two trees in which the same has happened are alike.
theorem Merged.get?_eq {us' : List Tree} (h : t.Merged us s) (h' : t.Merged us' s')
    (hus : ∀ u, u ∈ us ↔ u ∈ us') (q : Location) : s'.get? q = s.get? q := by
  by_cases hall : ∀ u ∈ us, u.get? q = t.get? q
  case pos => rw [h.kept q hall, h'.kept q fun u hu => hall u ((hus u).mpr hu)]
  case neg =>
    simp only [not_forall] at hall
    obtain ⟨u, hu, hne⟩ := hall
    rw [h.changed u hu q hne, h'.changed u ((hus u).mp hu) q hne]

end Merged

section Touched

-- What happened to a tree happened at some places, but for directories on the way to them.
def Touched (t : Tree) (places : List Location) (u : Tree) : Prop :=
  ∀ q, u.get? q = t.get? q ∨ q ∈ places ∨
    t.get? q = none ∧ u.get? q = some .directory ∧ ∃ place ∈ places, q <+: place ∧ q ≠ place

theorem Touched.refl (t : Tree) (places : List Location) : t.Touched places t :=
  fun _ => .inl rfl

theorem Touched.alike (h : t.Touched places v) (hp : place ∈ places)
    (ha : Alike place v v' s s') : t.Touched places v' := by
  intro q
  cases ha.effect q with
  | kept hv => rw [hv]; exact h q
  | made hfront hne hnone hv =>
    obtain heq | hq | ⟨-, hdir, -⟩ := h q
    case inl => exact .inr (.inr ⟨heq.symm.trans hnone, hv, place, hp, hfront, hne⟩)
    case inr.inl => exact .inr (.inl hq)
    case inr.inr => cases hnone.symm.trans hdir
  | filed hq => exact .inr (.inl (hq ▸ hp))

theorem Touched.spares (h : t.Touched places u)
    (hp : ∀ other ∈ places, ¬other <+: place ∧ ¬place <+: other) : t.Spares u place := by
  intro q hq
  obtain heq | hmem | ⟨hnone, hdir, other, hother, hfront, -⟩ := h q
  case inl => exact .inl heq
  case inr.inl => exact absurd hq (hp q hmem).1
  case inr.inr =>
    refine .inr ⟨?_, hnone, hdir⟩
    rintro rfl
    exact (hp other hother).2 hfront

end Touched

-- A tree as it has become by itself, and the one that has become of the same deeds after others.
structure Beside (t : Tree) (D : Location) (places : List Location) (us : List Tree)
    (v s : Tree) : Prop where
  within : t.Within D v
  within' : t.Within D s
  merged : t.Merged (v :: us) s
  touched : t.Touched places v

theorem Beside.alike (h : t.Beside D places us v s) (ha : Alike place v v' s s')
    (hus : ∀ u ∈ us, t.Spares u place) (hp : place ∈ places) (hD : D <+: place) (hne : place ≠ D) :
    t.Beside D places us v' s' :=
  have ⟨hv, hs⟩ := h.within.alike h.within' ha hD hne
  ⟨hv, hs, h.merged.alike hus ha, h.touched.alike hp ha⟩

end Tree

namespace Change

open LuaBundle.Tree

variable {t u v s : Tree} {D names : Location} {us : List Tree} {places : List Location}
  {c : Change} {cs rest : List Change} {n : OsString} {p : Path}

-- The changes that are made in turn, the one that fails with them.
def attempted (t : Tree) : List Change → List Change
  | [] => []
  | c :: rest =>
    c ::
      match c.apply t with
      | (_, some _) => []
      | (t, none) => attempted t rest

-- The path that a change is for.
def destination : Change → Path
  | makeDirectories p => p
  | write p _ => p
  | copy _ p => p

-- Files in turn, each after the directories that it needs.
def steps (cs : List Change) : List Change :=
  cs.flatMap fun c => withParents c.destination c

-- A change that fails in both of two trees or in none, and then the changes behind it.
theorem applyAll_cons_alike {P : Tree → Tree → Prop} (hfailure : (c.apply s).2 = (c.apply v).2)
    (hP : P (c.apply v).1 (c.apply s).1)
    (hrest : (c.apply v).2 = none →
      (applyAll (c.apply s).1 rest).2 = (applyAll (c.apply v).1 rest).2 ∧
        P (applyAll (c.apply v).1 rest).1 (applyAll (c.apply s).1 rest).1) :
    (applyAll s (c :: rest)).2 = (applyAll v (c :: rest)).2 ∧
      P (applyAll v (c :: rest)).1 (applyAll s (c :: rest)).1 := by
  cases hv : c.apply v with
  | mk v' failure =>
    cases hs : c.apply s with
    | mk s' failure' =>
      rw [hv, hs] at hfailure hP hrest
      obtain rfl : failure' = failure := hfailure
      rw [applyAll, applyAll, hv, hs]
      cases failure' with
      | some e => exact ⟨rfl, hP⟩
      | none => exact hrest rfl

theorem mem_attempted_tail (h : (c.apply t).2 = none) {d : Change}
    (hd : d ∈ attempted (c.apply t).1 rest) : d ∈ attempted t (c :: rest) := by
  cases hc : c.apply t with
  | mk t' failure =>
    obtain rfl : failure = none := by simpa [hc] using h
    rw [attempted, hc]
    rw [hc] at hd
    exact .tail _ hd

theorem withParents_ofNames (h : ∀ m ∈ names ++ [n], IsName m) (c : Change) :
    withParents (ofNames (names ++ [n])) c = [makeDirectories (ofNames names), c] := by
  have hparent : (ofNames (names ++ [n])).parent? = some (ofNames names) := by
    have hp := Path.parent_ofNames h
    unfold Path.parent at hp
    cases hq : (ofNames (names ++ [n])).parent? with
    | some q => rw [hq] at hp; exact congrArg some hp
    | none =>
      rw [hq] at hp
      have := congrArg (fun p => p.bytes) hp
      simp [Path.bytes_ofNames, Path.empty] at this
  have hempty : (ofNames names).isEmpty = false := by simp [Path.isEmpty, Path.bytes_ofNames]
  rw [withParents, hparent]
  simp [hempty]

-- A change that makes a file below a directory.
structure Lies (D : Location) (places : List Location) (c : Change) : Prop where
  files : c.Files c.destination
  plain : c.destination.Plain
  below : D <+: c.destination.names
  ne : c.destination.names ≠ D
  mem : c.destination.names ∈ places

theorem Lies.exists_names (h : c.Lies D places) : ∃ names n, (∀ m ∈ names ++ [n], IsName m) ∧
    c.destination = ofNames (names ++ [n]) := by
  obtain ⟨way, hn, heq⟩ := h.plain.exists_names
  have hway : c.destination.names = way := by rw [heq, Path.names_ofNames hn]
  cases way using List.reverseRecOn with
  | nil =>
    have hD := List.prefix_nil.mp (hway ▸ h.below)
    exact absurd (hway.trans hD.symm) h.ne
  | append_singleton names n => exact ⟨names, n, hn, heq⟩

-- Files in turn: what comes of them is the same in both trees. By induction on the files, each of
-- which finds the directories on its way, or makes them, in one tree as in the other.
theorem applyAll_steps_alike (ht : t.Orderly) (h : t.Beside D places us v s)
    (hcs : ∀ c ∈ cs, c.Lies D places ∧ ∀ u ∈ us, t.Spares u c.destination.names)
    (hsource : ∀ c ∈ attempted v (steps cs), ∀ p, c.source? = some p →
      ∀ q ∈ t.looksAt p, ¬t.Open D q) :
    (applyAll s (steps cs)).2 = (applyAll v (steps cs)).2 ∧
      t.Beside D places us (applyAll v (steps cs)).1 (applyAll s (steps cs)).1 := by
  induction cs generalizing v s with
  | nil => exact ⟨rfl, h⟩
  | cons c cs ih =>
    obtain ⟨⟨hc, hus⟩, hcs⟩ := List.forall_mem_cons.mp hcs
    obtain ⟨names, n, hn, hdest⟩ := hc.exists_names
    have hnames : c.destination.names = names ++ [n] := by rw [hdest, Path.names_ofNames hn]
    obtain ⟨hfiles, -, hD, hne, hmem⟩ := hc
    rw [hnames] at hus hD hne hmem
    rw [hdest] at hfiles
    have hsteps : steps (c :: cs) = makeDirectories (ofNames names) :: c :: steps cs := by
      rw [steps, List.flatMap_cons, hdest, withParents_ofNames hn]
      rfl
    rw [hsteps] at hsource ⊢
    -- first the directories
    have hahead : Ahead v s names := fun q hq =>
      (h.merged.ahead hus (hq.trans (List.prefix_append _ _))).imp_right fun hq => hq.2
    obtain ⟨hfailure, halike, hopen⟩ := hahead.makeDirectories (n := n) h.within.orderly
      h.within'.orderly fun m hm => hn m (List.mem_append_left _ hm)
    have h := h.alike halike hus hmem hD hne
    refine applyAll_cons_alike (P := t.Beside D places us) hfailure h fun hmade => ?_
    -- then the file
    have hsource := fun d hd => hsource d (mem_attempted_tail hmade hd)
    obtain ⟨hdv, hds⟩ := hopen hmade
    have hlast : (s.makeDirectories (ancestors (ofNames names))).1.get? (names ++ [n]) =
        (v.makeDirectories (ancestors (ofNames names))).1.get? (names ++ [n]) :=
      (h.merged.ahead hus List.prefix_rfl).resolve_right fun hq => hq.1 rfl
    have hhere := h.within'.here.trans h.within.here.symm
    obtain ⟨hfailure, halike⟩ := hfiles.alike h.within.orderly h.within'.orderly hhere hn hdv hds
      hlast fun source hs =>
        h.within.found ht h.within' (hsource c (by rw [attempted]; exact .head _) source hs)
    have h := h.alike halike hus hmem hD hne
    refine applyAll_cons_alike (P := t.Beside D places us) hfailure h fun hfiled => ?_
    exact ih h hcs fun d hd => hsource d (mem_attempted_tail hfiled hd)

end Change
end LuaBundle

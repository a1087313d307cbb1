import Mathlib.Data.List.Nodup
import LuaBundle.Proofs.Module.Discovery

namespace LuaBundle

-- What a module is found as.
def Module.finding (m : Module) : ModuleId × Path :=
  (m.id, m.path)

namespace Builder

variable {b : Builder} {path q : Path} {calls : List StaticCall} {s s' : Survey} {g g' : Graph}
  {m : Module} {done : List (ModuleId × Path)}

-- A path that files are known by.
def Located (b : Builder) (p : Path) : Prop :=
  ∃ q, b.locator.files.canonicalize q = .ok p

theorem located_of_locate {reference : String}
    (h : b.locator.locate reference path = .ok q) : b.Located q :=
  Locator.exists_of_locate h

-- Files are known by absolute paths in their shortest spelling.
structure Tidy (b : Builder) : Prop where
  root : b.root.isAbsolute
  plain : ∀ p, b.Located p → p.Plain

-- What is found are files, apart from one another.
structure Surveyed (b : Builder) (s : Survey) : Prop where
  apart : s.found.Apart
  located : ∀ f ∈ s.found, b.Located f.2

theorem Surveyed.visit (h : b.Surveyed s) (hb : b.Tidy) (hq : b.Located q) :
    b.Surveyed (b.visit s q).2 := by
  unfold Builder.visit Survey.visit
  split
  case h_1 => exact h
  case h_2 hnew =>
    exact ⟨h.apart.cons hb.root (hb.plain q hq) hnew, List.forall_mem_cons.mpr ⟨hq, h.located⟩⟩

theorem Surveyed.follow (h : b.Surveyed s) (hb : b.Tidy) (path : Path) (calls : List StaticCall) :
    b.Surveyed (b.follow path calls s).2 := by
  refine follow_induction b path calls s (motive := b.Surveyed) ?_ ?_ h
  · intro t call _ ht
    have hfound := (found_meetExternal t path call).1
    exact ⟨hfound ▸ ht.apart, hfound ▸ ht.located⟩
  · intro t call _ _ target hlocate ht
    exact ht.visit hb (located_of_locate hlocate)

theorem Turn.surveyed (h : b.Turn s m s') (hb : b.Tidy) (hs : b.Surveyed s) : b.Surveyed s' := by
  cases h with
  | @mk _ path pending _ requires _ _ _ _ _ hfollow =>
    have hs : b.Surveyed ({ s with pending := pending }.warnValueUses path requires.valueUses) :=
      ⟨hs.apart, hs.located⟩
    have hs' := hs.follow hb path requires.calls
    rwa [hfollow] at hs'

theorem Turns.surveyed (h : b.Turns g s g' s') (hb : b.Tidy) (hs : b.Surveyed s) :
    b.Surveyed s' := by
  induction h with
  | refl => exact hs
  | step turn _ ih => exact ih (turn.surveyed hb hs)

-- The files found, in order, are those done and those whose turn is to come.
def Ordered (done : List (ModuleId × Path)) (s : Survey) : Prop :=
  s.found.reverse = done ++ s.pending

theorem Ordered.visit (h : Ordered done s) (b : Builder) (q : Path) :
    Ordered done (b.visit s q).2 := by
  unfold Builder.visit Survey.visit
  split
  case h_1 => exact h
  case h_2 =>
    rw [Ordered, List.reverse_cons, h, List.append_assoc]

theorem ordered_started (b : Builder) (start : Path) : Ordered [] (b.started start) :=
  (show Ordered [] ⟨[], [], [], []⟩ from rfl).visit b start

theorem Ordered.follow (h : Ordered done s) (b : Builder) (path : Path) (calls : List StaticCall) :
    Ordered done (b.follow path calls s).2 := by
  refine follow_induction b path calls s (motive := Ordered done) ?_ ?_ h
  · intro t call _ ht
    obtain ⟨hfound, hpending⟩ := found_meetExternal t path call
    rwa [Ordered, hfound, hpending]
  · exact fun t _ _ _ target _ ht => ht.visit b target

-- The file whose turn it is is done, and the files it finds wait behind the others.
theorem Turn.ordered (h : b.Turn s m s') (ho : Ordered done s) :
    Ordered (done ++ [m.finding]) s' := by
  cases h with
  | @mk id path pending _ requires _ _ hpending _ _ hfollow =>
    have ho : Ordered (done ++ [(id, path)])
        ({ s with pending := pending }.warnValueUses path requires.valueUses) := by
      rw [Ordered, hpending] at ho
      rw [Ordered, List.append_assoc]
      exact ho
    have ho' := ho.follow b path requires.calls
    rwa [hfollow] at ho'

theorem Turn.mem_found (h : b.Turn s m s') (ho : Ordered done s) : m.finding ∈ s.found := by
  cases h with
  | mk hpending =>
    rw [← List.mem_reverse, ho, hpending]
    simp [Module.finding]

-- A module is what its file says: its source, and a reference for each call that is not external,
-- to the file that the call means, under the id that this file is found as.
structure Faithful (b : Builder) (found : Findings) (m : Module) : Prop where
  read : b.locator.files.read m.path = .ok m.source
  scanned : b.Scanned m
  located : ∀ r ∈ m.references, b.locator.locate r.literal m.path = .ok r.path
  found : ∀ r ∈ m.references, ∃ q, (r.target, q) ∈ found ∧ q ≈ r.path

theorem Faithful.mono {found found' : Findings} (h : b.Faithful found m) (hf : found <:+ found') :
    b.Faithful found' m :=
  { h with
    found := fun r hr =>
      have ⟨q, hq, he⟩ := h.found r hr
      ⟨q, hf.subset hq, he⟩ }

theorem Turn.found_suffix (h : b.Turn s m s') : s.found <:+ s'.found := by
  cases h with
  | @mk _ path pending _ requires _ _ _ _ _ hfollow =>
    have hsuffix := b.found_suffix_follow path requires.calls
      ({ s with pending := pending }.warnValueUses path requires.valueUses)
    rwa [hfollow] at hsuffix

theorem Turns.found_suffix (h : b.Turns g s g' s') : s.found <:+ s'.found := by
  induction h with
  | refl => exact List.suffix_rfl
  | step turn _ ih => exact turn.found_suffix.trans ih

theorem Turns.finding_mem_found (h : b.Turns g s g' s') (ho : Ordered done s)
    (hg : ∀ m ∈ g.modules, m.finding ∈ s.found) : ∀ m ∈ g'.modules, m.finding ∈ s'.found := by
  induction h generalizing done with
  | refl => exact hg
  | step turn _ ih =>
    refine ih (turn.ordered ho) fun x hx => ?_
    have hsuffix := turn.found_suffix.subset
    rcases mem_of_mem_insert hx with rfl | hx
    case inl => exact hsuffix (turn.mem_found ho)
    case inr => exact hsuffix (hg x hx)

theorem Turn.faithful (h : b.Turn s m s') : b.Faithful s'.found m := by
  have hscanned := h.scanned
  cases h with
  | mk _ hread _ hfollow =>
    have hlocated := (follow_eq_ok hfollow).2
    exact ⟨hread, hscanned, fun r hr => (hlocated r hr).1, fun r hr => (hlocated r hr).2⟩

theorem Turns.faithful (h : b.Turns g s g' s') (hg : ∀ m ∈ g.modules, b.Faithful s.found m) :
    ∀ m ∈ g'.modules, b.Faithful s'.found m := by
  induction h with
  | refl => exact hg
  | step turn _ ih =>
    refine ih fun x hx => ?_
    rcases mem_of_mem_insert hx with rfl | hx
    case inl => exact turn.faithful
    case inr => exact (hg x hx).mono turn.found_suffix

section Built

variable {files : FiniteFiles} {options : Options} {entry start : Path}

theorem faithful_of_buildGraph (hs : files.canonicalize entry = .ok start)
    (h : (buildGraph files options entry).result = .ok g) (hm : m ∈ g.modules) :
    ∃ found, (Builder.of files options start).Faithful found m := by
  obtain ⟨start', s, hs', hturns, -⟩ := turns_of_buildGraph h
  obtain rfl : start' = start := Except.ok.inj (hs'.symm.trans hs)
  exact ⟨s.found, hturns.faithful (by simp [Graph.empty]) m hm⟩

theorem read_of_buildGraph (h : (buildGraph files options entry).result = .ok g) :
    ∀ m ∈ g.modules, files.read m.path = .ok m.source := by
  obtain ⟨_, _, hs, -⟩ := turns_of_buildGraph h
  exact fun m hm => have ⟨_, hfaithful⟩ := faithful_of_buildGraph hs h hm; hfaithful.read

-- Each reference of a module has the file that its literal means in the module's file.
theorem located_of_buildGraph (hs : files.canonicalize entry = .ok start)
    (h : (buildGraph files options entry).result = .ok g) :
    ∀ m ∈ g.modules, ∀ r ∈ m.references,
      (Builder.of files options start).locator.locate r.literal m.path = .ok r.path :=
  fun _ hm => have ⟨_, hfaithful⟩ := faithful_of_buildGraph hs h hm; hfaithful.located

end Built

-- What is found are files, each with an id of its own.
structure Sound (b : Builder) (s : Survey) : Prop where
  oneToOne : s.found.OneToOne
  located : ∀ f ∈ s.found, b.Located f.2

theorem Sound.of_suffix (h : b.Sound s') (hs : s.found <:+ s'.found) : b.Sound s :=
  ⟨h.oneToOne.of_suffix hs, fun f hf => h.located f (hs.subset hf)⟩

theorem Sound.known (h : b.Sound s) : ∀ f ∈ s.found, f.2 ∈ b.known := fun f hf =>
  have ⟨_, hc⟩ := h.located f hf
  b.mem_known hc

-- The invariant of an exploration that gives each file an id of its own.
structure Explored (b : Builder) (g : Graph) (s : Survey) : Prop where
  sound : b.Sound s
  ordered : Ordered (g.modules.map Module.finding) s
  faithful : ∀ m ∈ g.modules, b.Faithful s.found m

theorem Explored.mem_found (h : b.Explored g s) (hm : m ∈ g.modules) : m.finding ∈ s.found := by
  rw [← List.mem_reverse, h.ordered]
  exact List.mem_append_left _ (List.mem_map_of_mem hm)

theorem modules_insert (h : m.id ∉ g.modules.map Module.id) :
    (g.insert m).modules = g.modules ++ [m] := by
  refine if_neg fun ha => h ?_
  obtain ⟨n, hn, he⟩ := List.any_eq_true.mp ha
  exact List.mem_map.mpr ⟨n, hn, by simpa using he⟩

-- Once every file found has an id of its own, no module takes the place of another.
theorem Turn.id_not_mem (h : b.Turn s m s') (hids : (s.found.map Prod.fst).Nodup)
    (ho : Ordered (g.modules.map Module.finding) s) : m.id ∉ g.modules.map Module.id := by
  cases h with
  | @mk id path pending _ _ _ _ hpending =>
    have hids := List.nodup_reverse.mpr hids
    rw [← List.map_reverse, ho, hpending, List.map_append, List.nodup_append] at hids
    intro hmem
    obtain ⟨n, hn, he⟩ := List.mem_map.mp hmem
    refine hids.2.2 n.id ?_ n.id (by simp [he]) rfl
    simpa [Module.finding] using ⟨n, hn, rfl⟩

theorem Explored.turn (h : b.Explored g s) (ht : b.Turn s m s') (hs : b.Sound s') :
    b.Explored (g.insert m) s' := by
  have hinsert := modules_insert (ht.id_not_mem h.sound.oneToOne.ids h.ordered)
  refine ⟨hs, ?_, fun n hn => ?_⟩
  · rw [hinsert, List.map_append]
    exact ht.ordered h.ordered
  · rw [hinsert] at hn
    rcases List.mem_append.mp hn with hn | hn
    case inl => exact (h.faithful n hn).mono ht.found_suffix
    case inr => exact List.mem_singleton.mp hn ▸ ht.faithful

theorem Turns.explored (h : b.Turns g s g' s') (hg : b.Explored g s) (hs : b.Sound s') :
    b.Explored g' s' := by
  induction h with
  | refl => exact hg
  | step turn more ih => exact ih (hg.turn turn (hs.of_suffix more.found_suffix)) hs

end Builder
end LuaBundle

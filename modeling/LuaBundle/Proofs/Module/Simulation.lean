import Mathlib.Data.List.Forall2
import LuaBundle.Proofs.Module.Discovery

namespace LuaBundle

namespace Builder

variable {b b' : Builder} {P : Path → Path → Prop} {I : ModuleId → ModuleId → Prop}
  {p p' : Path} {s s' t : Survey} {g g' : Graph} {m m' : Module}

-- A call of one build for a call of another: both are left to the host or neither is, and where the
-- first means a file the second means the file that stands for it.
structure Answers (b b' : Builder) (P : Path → Path → Prop) (p p' : Path) (c c' : StaticCall) :
    Prop where
  external : b'.options.isExternal c'.literal = b.options.isExternal c.literal
  locate : b.options.isExternal c.literal = false → ∀ q, b.locator.locate c.literal p = .ok q →
    ∃ q', b'.locator.locate c'.literal p' = .ok q' ∧ P q q'

-- One build for another, where files stand for files and ids for ids: the files would like the same
-- ids, and where a file can be read, scanned and followed, so can the one that stands for it.
structure Mirrors (b b' : Builder) (P : Path → Path → Prop) (I : ModuleId → ModuleId → Prop) :
    Prop where
  paths : ∀ {p p' q q' : Path}, P p p' → P q q' → (p ≈ q ↔ p' ≈ q')
  ids : ∀ {id id' other other' : ModuleId}, I id id' → I other other' → (id = other ↔ id' = other')
  wishes : ∀ {p p' : Path}, P p p' → ModuleId.wishes b'.root b'.options.extension p' =
    ModuleId.wishes b.root b.options.extension p
  wish : ∀ {p p' : Path} {id : ModuleId}, P p p' →
    id ∈ ModuleId.wishes b.root b.options.extension p → I id id
  whole : ∀ {p p' : Path}, P p p' → I ⟨p.slashed⟩ ⟨p'.slashed⟩
  calls : ∀ {p p' : Path} {source : String} {requires : Requires}, P p p' →
    b.locator.files.read p = .ok source → Requires.of source = .ok requires →
      ∃ source' requires', b'.locator.files.read p' = .ok source' ∧
        Requires.of source' = .ok requires' ∧
        List.Forall₂ (b.Answers b' P p p') requires.calls requires'.calls

-- What is found in one build for what is found in the other.
def Stand (P : Path → Path → Prop) (I : ModuleId → ModuleId → Prop) (f f' : ModuleId × Path) :
    Prop :=
  I f.1 f'.1 ∧ P f.2 f'.2

structure Mirrored (P : Path → Path → Prop) (I : ModuleId → ModuleId → Prop) (s s' : Survey) :
    Prop where
  found : List.Forall₂ (Stand P I) s.found s'.found
  pending : List.Forall₂ (Stand P I) s.pending s'.pending

section Visit

variable {found found' : Findings} {id : ModuleId}

theorem Mirrors.id? (h : b.Mirrors b' P I) (hf : List.Forall₂ (Stand P I) found found')
    (hp : P p p') : Option.Rel I (found.id? p) (found'.id? p') := by
  induction hf with
  | nil => exact .none
  | @cons f f' found found' hstand _ ih =>
    have hpath := h.paths hstand.2 hp
    unfold Findings.id? at ih ⊢
    by_cases hf : f.2 ≈ p
    case pos =>
      rw [List.find?_cons_of_pos (by simpa using hf),
        List.find?_cons_of_pos (by simpa using hpath.mp hf)]
      exact .some hstand.1
    case neg =>
      rw [List.find?_cons_of_neg (by simpa using hf),
        List.find?_cons_of_neg (by simpa using mt hpath.mpr hf)]
      exact ih

theorem Mirrors.isFree_eq (h : b.Mirrors b' P I) (hf : List.Forall₂ (Stand P I) found found')
    (hp : P p p') (hid : I id id) : found'.isFree p' id = found.isFree p id := by
  induction hf with
  | nil => rfl
  | @cons f f' found found' hstand _ ih =>
    have hpath := h.paths hstand.2 hp
    have hids := h.ids hstand.1 hid
    unfold Findings.isFree Findings.owner? at ih ⊢
    by_cases hf : f.1 = id
    case pos =>
      rw [List.find?_cons_of_pos (by simpa using hids.mp hf),
        List.find?_cons_of_pos (by simpa using hf)]
      exact decide_eq_decide.mpr hpath.symm
    case neg =>
      rw [List.find?_cons_of_neg (by simpa using mt hids.mpr hf),
        List.find?_cons_of_neg (by simpa using hf)]
      exact ih

theorem Mirrors.newId (h : b.Mirrors b' P I) (hf : List.Forall₂ (Stand P I) found found')
    (hp : P p p') : I (found.newId b.root b.options.extension p)
      (found'.newId b'.root b'.options.extension p') := by
  unfold Findings.newId
  rw [h.wishes hp]
  have hfree : (ModuleId.wishes b.root b.options.extension p).find? (found'.isFree p') =
      (ModuleId.wishes b.root b.options.extension p).find? (found.isFree p) := by
    rw [← List.head?_filter, ← List.head?_filter,
      List.filter_congr fun id hid => h.isFree_eq hf hp (h.wish hp hid)]
  rw [hfree]
  cases hw : (ModuleId.wishes b.root b.options.extension p).find? (found.isFree p) with
  | none => exact h.whole hp
  | some id => exact h.wish hp (List.mem_of_find?_eq_some hw)

theorem Mirrors.visit (h : b.Mirrors b' P I) (hs : Mirrored P I s s') (hp : P p p') :
    I (b.visit s p).1 (b'.visit s' p').1 ∧ Mirrored P I (b.visit s p).2 (b'.visit s' p').2 := by
  have hnew := h.newId hs.found hp
  have hid := h.id? hs.found hp
  unfold Builder.visit Survey.visit
  generalize s.found.id? p = known, s'.found.id? p' = known' at hid
  cases hid with
  | some hid => exact ⟨hid, hs⟩
  | none =>
    exact ⟨hnew, .cons ⟨hnew, hp⟩ hs.found, List.rel_append hs.pending (.cons ⟨hnew, hp⟩ .nil)⟩

theorem Mirrored.meetExternal (h : Mirrored P I s s') (path path' : Path) (call call' : StaticCall) :
    Mirrored P I (s.meetExternal path call) (s'.meetExternal path' call') := by
  obtain ⟨hfound, hpending⟩ := found_meetExternal s path call
  obtain ⟨hfound', hpending'⟩ := found_meetExternal s' path' call'
  exact ⟨by rw [hfound, hfound']; exact h.found, by rw [hpending, hpending']; exact h.pending⟩

end Visit

section Turn

variable {calls calls' : List StaticCall} {references : List Reference}

-- By induction on the calls: each call that is followed is followed on the other side too.
theorem Mirrors.follow (h : b.Mirrors b' P I)
    (hcalls : List.Forall₂ (b.Answers b' P p p') calls calls') (hs : Mirrored P I s s')
    (hf : b.follow p calls s = (.ok references, t)) :
    ∃ references' t', b'.follow p' calls' s' = (.ok references', t') ∧ Mirrored P I t t' ∧
      List.Forall₂ (fun r r' => I r.target r'.target) references references' := by
  induction hcalls generalizing s s' references with
  | nil =>
    obtain ⟨rfl, rfl⟩ := by simpa [Builder.follow] using hf
    exact ⟨[], s', rfl, hs, .nil⟩
  | @cons call call' calls calls' hcall _ ih =>
    rcases follow_cons_eq_ok hf with ⟨he, hf⟩ | ⟨he, q, rest, hq, hrest, rfl⟩
    case inl =>
      rw [follow_external (hcall.external.trans he)]
      exact ih (hs.meetExternal p p' call call') hf
    case inr =>
      obtain ⟨q', hq', hstand⟩ := hcall.locate he q hq
      obtain ⟨hid, hvisit⟩ := h.visit hs hstand
      obtain ⟨rest', u', hrest', hu, hall⟩ := ih hvisit hrest
      exact ⟨_, u', follow_located (hcall.external.trans he) hq' hrest', hu, .cons hid hall⟩

end Turn

-- A module of one build for a module of the other.
structure Copies (P : Path → Path → Prop) (I : ModuleId → ModuleId → Prop) (m m' : Module) : Prop
    where
  id : I m.id m'.id
  path : P m.path m'.path
  targets : List.Forall₂ (fun r r' => I r.target r'.target) m.references m'.references

theorem Mirrors.turn (h : b.Mirrors b' P I) (hs : Mirrored P I s s') (ht : b.Turn s m t) :
    ∃ m' t', b'.Turn s' m' t' ∧ Mirrored P I t t' ∧ Copies P I m m' := by
  cases ht with
  | @mk id path pending source requires references _ hpending hread hscan hfollow =>
    have hstand := hs.pending
    rw [hpending] at hstand
    cases hp' : s'.pending with
    | nil => simp [hp'] at hstand
    | cons f' pending' =>
      rw [hp', List.forall₂_cons] at hstand
      obtain ⟨⟨hid, hpath⟩, hpending'⟩ := hstand
      obtain ⟨source', requires', hread', hscan', hcalls⟩ := h.calls hpath hread hscan
      have hs₀ : Mirrored P I
          ({ s with pending := pending }.warnValueUses path requires.valueUses)
          ({ s' with pending := pending' }.warnValueUses f'.2 requires'.valueUses) :=
        ⟨hs.found, hpending'⟩
      obtain ⟨references', t', hfollow', ht, htargets⟩ := h.follow hcalls hs₀ hfollow
      exact ⟨_, t', .mk hp' hread' hscan' hfollow', ht, hid, hpath, htargets⟩

-- A graph of one build for a graph of the other.
structure Copied (P : Path → Path → Prop) (I : ModuleId → ModuleId → Prop) (g g' : Graph) : Prop
    where
  entry : I g.entry g'.entry
  modules : List.Forall₂ (Copies P I) g.modules g'.modules

theorem Mirrors.insertInto (h : b.Mirrors b' P I) {modules modules' : List Module}
    (hm : Copies P I m m') (hall : List.Forall₂ (Copies P I) modules modules') :
    List.Forall₂ (Copies P I) (Graph.insertInto m modules) (Graph.insertInto m' modules') := by
  have hany : modules.any (·.id = m.id) = modules'.any (·.id = m'.id) := by
    induction hall with
    | nil => rfl
    | cons hn _ ih => rw [List.any_cons, List.any_cons, ih, decide_eq_decide.mpr (h.ids hn.id hm.id)]
  unfold Graph.insertInto
  rw [hany]
  split
  case isFalse => exact List.rel_append hall (.cons hm .nil)
  case isTrue =>
    refine List.forall₂_map_left_iff.mpr (List.forall₂_map_right_iff.mpr (hall.imp fun n n' hn => ?_))
    have hids := h.ids hn.id hm.id
    by_cases he : n.id = m.id
    case pos => rwa [if_pos he, if_pos (hids.mp he)]
    case neg => rwa [if_neg he, if_neg (mt hids.mpr he)]

theorem Copied.insert (hg : Copied P I g g') (h : b.Mirrors b' P I) (hm : Copies P I m m') :
    Copied P I (g.insert m) (g'.insert m') :=
  ⟨hg.entry, h.insertInto hm hg.modules⟩

-- The two builds stay in step.
theorem Mirrors.turns (h : b.Mirrors b' P I) {k : Graph} (hs : Mirrored P I s s')
    (hg : Copied P I g g') (ht : b.Turns g s k t) :
    ∃ k' t', b'.Turns g' s' k' t' ∧ Mirrored P I t t' ∧ Copied P I k k' := by
  induction ht generalizing g' s' with
  | refl => exact ⟨g', s', .refl, hs, hg⟩
  | step turn _ ih =>
    obtain ⟨m', s₁', turn', hs₁, hm⟩ := h.turn hs turn
    obtain ⟨k', t', hturns, ht⟩ := ih hs₁ (hg.insert h hm)
    exact ⟨k', t', .step turn' hturns, ht⟩

-- Turns that leave no file waiting are what an exploration does.
theorem Turns.explore_eq (h : b.Turns g s g' s') (hp : s'.pending = []) :
    b.explore g s = (.ok g', s') := by
  induction h with
  | @refl g s =>
    rw [explore.eq_def]
    split
    case h_1 => rfl
    case h_2 hcons => simp [hp] at hcons
  | @step g _ s _ _ _ turn _ ih =>
    cases turn with
    | mk hpending hread hscan hfollow =>
      rw [← ih hp, explore.eq_def]
      split
      case h_1 hnil => simp [hpending] at hnil
      case h_2 id path pending hcons =>
        obtain ⟨hhead, rfl⟩ := List.cons.inj (hpending.symm.trans hcons)
        obtain ⟨rfl, rfl⟩ := Prod.mk.inj hhead
        simp only [hread, hscan]
        split
        case h_1 herror => cases herror.symm.trans hfollow
        case h_2 hok =>
          obtain ⟨hreferences, rfl⟩ := Prod.mk.inj (hok.symm.trans hfollow)
          rw [Except.ok.inj hreferences]

-- What a build comes to that takes turns until no file waits.
theorem Turns.buildGraph_eq {files : FiniteFiles} {options : Options} {entry start : Path}
    (hs : files.canonicalize entry = .ok start)
    (h : (Builder.of files options start).Turns
      (.empty ((Builder.of files options start).visit ⟨[], [], [], []⟩ start).1)
      ((Builder.of files options start).started start) g s) (hp : s.pending = []) :
    buildGraph files options entry = ⟨.ok g, s.diagnostics⟩ := by
  have hexplore := h.explore_eq hp
  rw [started] at hexplore
  simp only [buildGraph, hs, hexplore]

end Builder

-- Where one build can stand for another and succeeds, the other does so as well, with a graph that
-- stands for the graph of the first.
theorem buildGraph_copied {files files' : FiniteFiles} {options options' : Options}
    {entry entry' start start' : Path} {g : Graph} {P : Path → Path → Prop}
    {I : ModuleId → ModuleId → Prop} (hs : files.canonicalize entry = .ok start)
    (hs' : files'.canonicalize entry' = .ok start') (hp : P start start')
    (hm : (Builder.of files options start).Mirrors (Builder.of files' options' start') P I)
    (h : (buildGraph files options entry).result = .ok g) :
    ∃ g', (buildGraph files' options' entry').result = .ok g' ∧ Builder.Copied P I g g' := by
  obtain ⟨start₀, s, hs₀, hturns, hpending⟩ := Builder.turns_of_buildGraph h
  obtain rfl : start₀ = start := Except.ok.inj (hs₀.symm.trans hs)
  have hempty : Builder.Mirrored P I ⟨[], [], [], []⟩ ⟨[], [], [], []⟩ := ⟨.nil, .nil⟩
  obtain ⟨hid, hvisit⟩ := hm.visit hempty hp
  have hcopied : Builder.Copied P I (.empty _) (.empty _) := ⟨hid, .nil⟩
  obtain ⟨g', s', hturns', hmirrored, hcopied⟩ := hm.turns hvisit hcopied hturns
  have hnil : s'.pending = [] := by
    have := hmirrored.pending
    rwa [hpending, List.forall₂_nil_left_iff] at this
  exact ⟨g', congrArg Outcome.result (hturns'.buildGraph_eq hs' hnil), hcopied⟩

end LuaBundle

import LuaBundle.Module.Discovery
import LuaBundle.Proofs.Module.Ids

namespace LuaBundle

theorem exists_of_map_eq_ok {ε α β : Type} {f : α → β} {x : Except ε α} {b : β}
    (h : x.map f = .ok b) : ∃ a, x = .ok a ∧ f a = b := by
  cases x with
  | error e => cases h
  | ok a => exact ⟨a, rfl, Except.ok.inj h⟩

theorem eq_error_of_map_eq_error {ε α β : Type} {f : α → β} {x : Except ε α} {e : ε}
    (h : x.map f = .error e) : x = .error e := by
  cases x with
  | ok => cases h
  | error => exact congrArg _ (Except.error.inj h)

def Reference.call (r : Reference) : StaticCall :=
  ⟨r.literal, r.span⟩

namespace Builder

variable {b : Builder} {path : Path} {calls : List StaticCall} {s s' : Survey} {g g' : Graph}
  {m : Module}

section Follow

-- What following calls keeps: anything that the two ways to treat a call keep.
theorem follow_induction (b : Builder) (path : Path) (calls : List StaticCall) (s : Survey)
    {motive : Survey → Prop}
    (external : ∀ s, ∀ call ∈ calls, motive s → motive (s.meetExternal path call))
    (visit : ∀ s, ∀ call ∈ calls, b.options.isExternal call.literal = false → ∀ target,
      b.locator.locate call.literal path = .ok target → motive s → motive (b.visit s target).2)
    (hs : motive s) : motive (b.follow path calls s).2 := by
  induction calls generalizing s with
  | nil => exact hs
  | cons call calls ih =>
    have ih {s : Survey} (hs : motive s) : motive (b.follow path calls s).2 :=
      ih s (fun s c hc => external s c (.tail call hc)) (fun s c hc => visit s c (.tail call hc)) hs
    rw [follow]
    split
    case isTrue => exact ih (external s call List.mem_cons_self hs)
    case isFalse he =>
      split
      case h_1 => exact hs
      case h_2 target ht =>
        exact ih (visit s call List.mem_cons_self (by simpa using he) target ht hs)

theorem found_meetExternal (s : Survey) (path : Path) (call : StaticCall) :
    (s.meetExternal path call).found = s.found ∧
      (s.meetExternal path call).pending = s.pending := by
  unfold Survey.meetExternal
  split <;> exact ⟨rfl, rfl⟩

theorem found_suffix_visit (s : Survey) (target : Path) :
    s.found <:+ (b.visit s target).2.found := by
  unfold visit Survey.visit
  split
  case h_1 => exact List.suffix_rfl
  case h_2 => exact List.suffix_cons _ _

theorem found_suffix_follow (b : Builder) (path : Path) (calls : List StaticCall) (s : Survey) :
    s.found <:+ (b.follow path calls s).2.found := by
  refine follow_induction b path calls s (motive := fun t => s.found <:+ t.found) ?_ ?_
    List.suffix_rfl
  · intro t call _ ht
    rwa [(found_meetExternal t path call).1]
  · intro t call _ _ target _ ht
    exact ht.trans (found_suffix_visit t target)

-- A visited file is found, under the id that the visit gives.
theorem mem_found_visit (s : Survey) (target : Path) :
    ∃ q, ((b.visit s target).1, q) ∈ (b.visit s target).2.found ∧ q ≈ target := by
  unfold visit Survey.visit
  split
  case h_1 id h => exact Findings.mem_of_id?_eq_some h
  case h_2 => exact ⟨target, List.mem_cons_self, Setoid.refl target⟩

theorem follow_external {call : StaticCall} (he : b.options.isExternal call.literal = true) :
    b.follow path (call :: calls) s = b.follow path calls (s.meetExternal path call) := by
  rw [follow, if_pos he]

theorem follow_located {call : StaticCall} {target : Path} {references : List Reference}
    (he : b.options.isExternal call.literal = false)
    (hl : b.locator.locate call.literal path = .ok target)
    (hf : b.follow path calls (b.visit s target).2 = (.ok references, s')) :
    b.follow path (call :: calls) s =
      (.ok (⟨call.literal, call.span, target, (b.visit s target).1⟩ :: references), s') := by
  rw [follow, if_neg (by simp [he]), hl]
  simp [hf, Except.map]

-- A call in front of others is followed with them: it is left to the host, or it means a file that
-- is visited and becomes a reference to that file.
theorem follow_cons_eq_ok {call : StaticCall} {references : List Reference}
    (h : b.follow path (call :: calls) s = (.ok references, s')) :
    (b.options.isExternal call.literal = true ∧
      b.follow path calls (s.meetExternal path call) = (.ok references, s')) ∨
    b.options.isExternal call.literal = false ∧ ∃ target rest,
      b.locator.locate call.literal path = .ok target ∧
      b.follow path calls (b.visit s target).2 = (.ok rest, s') ∧
      references = ⟨call.literal, call.span, target, (b.visit s target).1⟩ :: rest := by
  rw [follow] at h
  split at h
  case isTrue he => exact .inl ⟨he, h⟩
  case isFalse he =>
    split at h
    case h_1 => simp at h
    case h_2 target hl =>
      cases hf : b.follow path calls (b.visit s target).2 with
      | mk result s'' =>
        simp only [hf] at h
        cases result with
        | error e => simp [Except.map] at h
        | ok rest =>
          obtain ⟨rfl, rfl⟩ := by simpa [Except.map] using h
          exact .inr ⟨by simpa using he, target, rest, hl, hf, rfl⟩

-- The references that are made: one for each call that is not external, in order, with the file it
-- means and the id of that file.
theorem follow_eq_ok {references : List Reference}
    (h : b.follow path calls s = (.ok references, s')) :
    references.map Reference.call = calls.filter (fun c => !b.options.isExternal c.literal) ∧
      ∀ r ∈ references, b.locator.locate r.literal path = .ok r.path ∧
        ∃ q, (r.target, q) ∈ s'.found ∧ q ≈ r.path := by
  induction calls generalizing s references with
  | nil =>
    obtain ⟨rfl, rfl⟩ := by simpa [follow] using h
    simp
  | cons call calls ih =>
    rcases follow_cons_eq_ok h with ⟨he, h⟩ | ⟨he, target, rest, ht, hf, rfl⟩
    case inl =>
      obtain ⟨hcalls, hr⟩ := ih h
      exact ⟨by simpa [he] using hcalls, hr⟩
    case inr =>
      obtain ⟨hcalls, hr⟩ := ih hf
      refine ⟨by simp [he, hcalls, Reference.call], List.forall_mem_cons.mpr ⟨⟨ht, ?_⟩, hr⟩⟩
      obtain ⟨q, hq, heq⟩ := mem_found_visit (b := b) s target
      have hsuffix := b.found_suffix_follow path calls (b.visit s target).2
      rw [hf] at hsuffix
      exact ⟨q, hsuffix.subset hq, heq⟩

end Follow

-- The turn of a file: it is read and scanned, its calls are followed, and it becomes a module.
inductive Turn (b : Builder) (s : Survey) : Module → Survey → Prop
  | mk {id : ModuleId} {path : Path} {pending : List (ModuleId × Path)} {source : String}
      {requires : Requires} {references : List Reference} {s' : Survey}
      (hpending : s.pending = (id, path) :: pending)
      (hread : b.locator.files.read path = .ok source) (hscan : Requires.of source = .ok requires)
      (hfollow : b.follow path requires.calls
        ({ s with pending := pending }.warnValueUses path requires.valueUses) =
          (.ok references, s')) :
      Turn b s ⟨id, path, source, references⟩ s'

-- Turn after turn.
inductive Turns (b : Builder) : Graph → Survey → Graph → Survey → Prop
  | refl {g : Graph} {s : Survey} : Turns b g s g s
  | step {g g' : Graph} {s s₁ s' : Survey} {m : Module} (turn : Turn b s m s₁)
      (more : Turns b (g.insert m) s₁ g' s') : Turns b g s g' s'

-- An exploration that succeeds takes turns until no file waits.
theorem turns_of_explore (h : b.explore g s = (.ok g', s')) :
    b.Turns g s g' s' ∧ s'.pending = [] := by
  fun_induction b.explore g s with
  | case1 g s hp =>
    obtain ⟨rfl, rfl⟩ := by simpa using h
    exact ⟨.refl, hp⟩
  | case2 => simp at h
  | case3 => simp at h
  | case4 => simp at h
  | case5 g s id path pending hp source hread requires hscan s₀ references s₁ hfollow ih =>
    obtain ⟨hturns, hnil⟩ := ih h
    exact ⟨.step (.mk hp hread hscan hfollow) hturns, hnil⟩

-- The survey of a build that has met its entry only.
def started (b : Builder) (start : Path) : Survey :=
  (b.visit ⟨[], [], [], []⟩ start).2

theorem found_started (b : Builder) (start : Path) :
    (b.started start).found = [((b.visit ⟨[], [], [], []⟩ start).1, start)] :=
  rfl

theorem turns_of_buildGraph {files : FiniteFiles} {options : Options} {entry : Path}
    (h : (buildGraph files options entry).result = .ok g) :
    ∃ start s, files.canonicalize entry = .ok start ∧
      (Builder.of files options start).Turns
        (.empty ((Builder.of files options start).visit ⟨[], [], [], []⟩ start).1)
        ((Builder.of files options start).started start) g s ∧ s.pending = [] := by
  rw [buildGraph] at h
  cases hc : files.canonicalize entry with
  | error e => simp [hc] at h
  | ok start =>
    simp only [hc] at h
    obtain ⟨hturns, hnil⟩ := turns_of_explore (Prod.ext h rfl)
    exact ⟨start, _, rfl, hturns, hnil⟩

theorem exists_turns_of_buildGraph {files : FiniteFiles} {options : Options} {entry : Path}
    (h : (buildGraph files options entry).result = .ok g) :
    ∃ start id s, files.canonicalize entry = .ok start ∧
      (Builder.of files options start).Turns (.empty id)
        ((Builder.of files options start).started start) g s ∧ s.pending = [] :=
  have ⟨start, s, hturns⟩ := turns_of_buildGraph h
  ⟨start, _, s, hturns⟩

-- The references of a module are the calls of its source that are not external, in order.
def Scanned (b : Builder) (m : Module) : Prop :=
  ∃ requires, Requires.of m.source = .ok requires ∧
    m.references.map Reference.call =
      requires.calls.filter fun c => !b.options.isExternal c.literal

theorem Turn.scanned (h : b.Turn s m s') : b.Scanned m := by
  cases h with
  | mk _ _ hscan hfollow => exact ⟨_, hscan, (follow_eq_ok hfollow).1⟩

theorem mem_of_mem_insert {x : Module} (h : x ∈ (g.insert m).modules) : x = m ∨ x ∈ g.modules := by
  have h : x ∈ Graph.insertInto m g.modules := h
  unfold Graph.insertInto at h
  split at h
  case isTrue =>
    obtain ⟨n, hn, rfl⟩ := List.mem_map.mp h
    split
    case isTrue => exact .inl rfl
    case isFalse => exact .inr hn
  case isFalse =>
    rcases List.mem_append.mp h with h | h
    case inl => exact .inr h
    case inr => exact .inl (List.mem_singleton.mp h)

-- What every turn brings about for its module holds of all modules.
theorem Turns.forall_modules {P : Module → Prop} (h : b.Turns g s g' s')
    (turn : ∀ {s m s'}, b.Turn s m s' → P m) (hg : ∀ m ∈ g.modules, P m) :
    ∀ m ∈ g'.modules, P m := by
  induction h with
  | refl => exact hg
  | step ht _ ih =>
    refine ih fun x hx => ?_
    rcases mem_of_mem_insert hx with rfl | hx
    case inl => exact turn ht
    case inr => exact hg x hx

theorem scanned_of_buildGraph {files : FiniteFiles} {options : Options} {entry : Path}
    (h : (buildGraph files options entry).result = .ok g) :
    ∀ m ∈ g.modules, ∃ requires, Requires.of m.source = .ok requires ∧
      m.references.map Reference.call =
        requires.calls.filter fun c => !options.isExternal c.literal := by
  obtain ⟨start, _, _, -, hturns, -⟩ := exists_turns_of_buildGraph h
  exact hturns.forall_modules (P := (Builder.of files options start).Scanned)
    (fun ht => ht.scanned) (by simp [Graph.empty])

end Builder
end LuaBundle

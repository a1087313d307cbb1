import Mathlib.Data.Finset.Dedup
import Mathlib.Data.Finset.Card
import LuaBundle.Proofs.File.Memory
import LuaBundle.Proofs.Module.Discovery

namespace LuaBundle

namespace Builder

variable {b : Builder} {path q : Path} {s s' : Survey} {g : Graph} {m : Module} {n : Nat}
  {put : List (ModuleId × Path)} {e : BundleError} {result : Except BundleError Graph}

-- A turn that breaks off: its file cannot be read or scanned, or one of its calls cannot be
-- followed after those in front of it have put files behind the ones that wait.
inductive BrokenTurn (b : Builder) (s : Survey) : List (ModuleId × Path) → BundleError → Prop
  | unread {f : ModuleId × Path} {pending : List (ModuleId × Path)} {cause : FileError}
      (hpending : s.pending = f :: pending) (hread : b.locator.files.read f.2 = .error cause) :
      BrokenTurn b s [] (.file f.2 cause)
  | unscanned {f : ModuleId × Path} {pending : List (ModuleId × Path)} {source : String}
      {call : DynamicCall} (hpending : s.pending = f :: pending)
      (hread : b.locator.files.read f.2 = .ok source) (hscan : Requires.of source = .error call) :
      BrokenTurn b s [] (.dynamic f.2 call)
  | unfollowed {f : ModuleId × Path} {pending put : List (ModuleId × Path)} {source : String}
      {requires : Requires} {e : BundleError} {s' : Survey} (hpending : s.pending = f :: pending)
      (hread : b.locator.files.read f.2 = .ok source) (hscan : Requires.of source = .ok requires)
      (hfollow : b.follow f.2 requires.calls
        ({ s with pending := pending }.warnValueUses f.2 requires.valueUses) = (.error e, s'))
      (hput : s'.pending = pending ++ put) : BrokenTurn b s put e

-- The whole course of an exploration: how many turns it begins, the files that it puts behind the
-- ones that wait, in order, and what it comes to.
inductive Course (b : Builder) :
    Graph → Survey → Nat → List (ModuleId × Path) → Except BundleError Graph → Prop
  | done {g : Graph} {s : Survey} (hpending : s.pending = []) : Course b g s 0 [] (.ok g)
  | broken {g : Graph} {s : Survey} {put : List (ModuleId × Path)} {e : BundleError}
      (h : b.BrokenTurn s put e) : Course b g s 1 put (.error e)
  | turn {g : Graph} {s s₁ : Survey} {m : Module} {n : Nat} {put later : List (ModuleId × Path)}
      {result : Except BundleError Graph} (h : b.Turn s m s₁)
      (hput : s₁.pending = s.pending.tail ++ put) (more : Course b (g.insert m) s₁ n later result) :
      Course b g s (n + 1) (put ++ later) result

section Put

-- What following calls puts behind the files that wait is what it finds.
theorem exists_put_follow (b : Builder) (path : Path) (calls : List StaticCall) (s : Survey) :
    ∃ put, (b.follow path calls s).2.pending = s.pending ++ put ∧
      (b.follow path calls s).2.found = put.reverse ++ s.found := by
  refine follow_induction b path calls s ?external ?visit ⟨[], by simp, rfl⟩
    (motive := fun t => ∃ put, t.pending = s.pending ++ put ∧ t.found = put.reverse ++ s.found)
  case external =>
    intro t call _ ⟨put, hpending, hfound⟩
    obtain ⟨hfound', hpending'⟩ := found_meetExternal t path call
    exact ⟨put, hpending'.trans hpending, hfound'.trans hfound⟩
  case visit =>
    intro t call _ _ target _ ⟨put, hpending, hfound⟩
    unfold Builder.visit Survey.visit
    split
    case h_1 => exact ⟨put, hpending, hfound⟩
    case h_2 =>
      exact ⟨put ++ [(t.found.newId b.root b.options.extension target, target)],
        by simp [hpending], by simp [hfound]⟩

theorem Turn.exists_put (h : b.Turn s m s') :
    ∃ put, s'.pending = s.pending.tail ++ put ∧ s'.found = put.reverse ++ s.found := by
  cases h with
  | @mk _ path pending _ requires _ _ hpending _ _ hfollow =>
    have hput := b.exists_put_follow path requires.calls
      ({ s with pending := pending }.warnValueUses path requires.valueUses)
    rw [hfollow] at hput
    rw [hpending]
    exact hput

theorem Turn.length_pos (h : b.Turn s m s') : 0 < s.pending.length := by
  cases h with
  | mk hpending => rw [hpending]; exact Nat.succ_pos _

theorem BrokenTurn.length_pos (h : b.BrokenTurn s put e) : 0 < s.pending.length := by
  cases h with
  | unread hpending | unscanned hpending | unfollowed hpending =>
    rw [hpending]
    exact Nat.succ_pos _

-- An exploration has a course, whether it fails or not.
theorem exists_course (b : Builder) (g : Graph) (s : Survey) :
    ∃ n put, b.Course g s n put (b.explore g s).1 := by
  fun_induction b.explore g s with
  | case1 g s hp => exact ⟨0, [], .done hp⟩
  | case2 g s id path pending hp cause hread =>
    exact ⟨1, [], .broken (.unread (f := (id, path)) hp hread)⟩
  | case3 g s id path pending hp source hread call hscan =>
    exact ⟨1, [], .broken (.unscanned (f := (id, path)) hp hread hscan)⟩
  | case4 g s id path pending hp source hread requires hscan s₀ cause s₁ hfollow =>
    obtain ⟨put, hput, -⟩ := b.exists_put_follow path requires.calls s₀
    rw [hfollow] at hput
    exact ⟨1, put, .broken (.unfollowed (f := (id, path)) hp hread hscan hfollow hput)⟩
  | case5 g s id path pending hp source hread requires hscan s₀ references s₁ hfollow ih =>
    obtain ⟨n, later, hmore⟩ := ih
    have hturn : b.Turn s ⟨id, path, source, references⟩ s₁ := .mk hp hread hscan hfollow
    obtain ⟨put, hput, -⟩ := hturn.exists_put
    exact ⟨n + 1, put ++ later, .turn hturn hput hmore⟩

-- Each turn takes one of the files that wait or that are put behind them.
theorem Course.le_length (h : b.Course g s n put result) : n ≤ s.pending.length + put.length := by
  induction h with
  | done => exact Nat.zero_le _
  | broken h =>
    have hpos := h.length_pos
    omega
  | @turn g s s₁ m n put later result h hput _ ih =>
    have hpos := h.length_pos
    rw [hput, List.length_append, List.length_tail] at ih
    rw [List.length_append]
    omega

end Put

section Listed

-- Findings of files that are known, none of them found twice.
structure Listed (b : Builder) (found : Findings) : Prop where
  separate : found.Separate
  known : ∀ f ∈ found, f.2 ∈ b.known

theorem Listed.visit (h : b.Listed s.found) (hq : q ∈ b.known) :
    b.Listed (b.visit s q).2.found := by
  unfold Builder.visit Survey.visit
  split
  case h_1 => exact h
  case h_2 hnew =>
    have hnew := Findings.id?_eq_none_iff.mp hnew
    exact ⟨.cons (fun f hf he => hnew f hf (Setoid.symm he)) h.separate,
      List.forall_mem_cons.mpr ⟨hq, h.known⟩⟩

theorem Listed.follow (h : b.Listed s.found) (path : Path) (calls : List StaticCall) :
    b.Listed (b.follow path calls s).2.found := by
  refine follow_induction b path calls s ?external ?visit h (motive := fun t => b.Listed t.found)
  case external =>
    intro t call _ ht
    rwa [(found_meetExternal t path call).1]
  case visit =>
    intro t call _ _ target hlocate ht
    obtain ⟨_, hc⟩ := Locator.exists_of_locate hlocate
    exact ht.visit (b.mem_known hc)

theorem Turn.listed (h : b.Turn s m s') (hs : b.Listed s.found) : b.Listed s'.found := by
  cases h with
  | @mk _ path pending _ requires _ _ _ _ _ hfollow =>
    have hs' := Listed.follow (s := { s with pending := pending }.warnValueUses path requires.valueUses)
      hs path requires.calls
    rwa [hfollow] at hs'

theorem BrokenTurn.listed (h : b.BrokenTurn s put e) (hs : b.Listed s.found) :
    b.Listed (put.reverse ++ s.found) := by
  cases h with
  | unread => exact hs
  | unscanned => exact hs
  | @unfollowed f pending _ _ requires _ _ _ _ _ hfollow hput =>
    obtain ⟨put', hput', hfound⟩ := b.exists_put_follow f.2 requires.calls
      ({ s with pending := pending }.warnValueUses f.2 requires.valueUses)
    have hs' := Listed.follow (s := { s with pending := pending }.warnValueUses f.2 requires.valueUses)
      hs f.2 requires.calls
    rw [hfollow] at hput' hfound hs'
    obtain rfl : put' = put := List.append_cancel_left (hput'.symm.trans hput)
    rwa [hfound] at hs'

-- By induction on the course: what is put behind the files that wait is found in addition to what
-- was found before.
theorem Course.listed (h : b.Course g s n put result) (hs : b.Listed s.found) :
    b.Listed (put.reverse ++ s.found) := by
  induction h with
  | done => exact hs
  | broken h => exact h.listed hs
  | @turn g s s₁ m n put later result h hput _ ih =>
    obtain ⟨put', hput', hfound⟩ := h.exists_put
    obtain rfl : put' = put := List.append_cancel_left (hput'.symm.trans hput)
    have hlater := ih (h.listed hs)
    rwa [hfound, ← List.append_assoc, ← List.reverse_append] at hlater

-- The files that ever wait in a course from its start, the start first of all.
theorem Course.listed_of_started {start : Path} (h : b.Course g (b.started start) n put result)
    (hs : start ∈ b.known) :
    (start :: put.map Prod.snd).Pairwise (fun p q => ¬ p ≈ q) ∧
      (∀ p ∈ start :: put.map Prod.snd, p ∈ b.known) ∧
      n ≤ (start :: put.map Prod.snd).length := by
  have hempty : b.Listed [] := ⟨.nil, by simp⟩
  have hlisted := h.listed (hempty.visit (s := ⟨[], [], [], []⟩) hs)
  have hpaths : start :: put.map Prod.snd =
      (put.reverse ++ (b.started start).found).reverse.map Prod.snd := by
    simp [found_started]
  rw [hpaths]
  refine ⟨?separate, fun p hp => ?known, ?length⟩
  case separate =>
    rw [List.pairwise_map, List.pairwise_reverse]
    exact hlisted.separate.imp fun hne he => hne (Setoid.symm he)
  case known =>
    obtain ⟨f, hf, rfl⟩ := List.mem_map.mp hp
    exact hlisted.known f (List.mem_reverse.mp hf)
  case length =>
    have hpending : (b.started start).pending.length = 1 := rfl
    have hn := h.le_length
    simp [found_started]
    omega

end Listed

end Builder

-- A build ends after as many turns as there are files at the most. Every file that ever waits for
-- a turn, from the start on, is a file of the memory, and none is made to wait twice.
theorem buildGraph_course (m : Memory) (options : Options) {entry start : Path}
    (hs : m.canonicalize entry = .ok start) :
    ∃ id n put, (Builder.of m.fileSystem options start).Course (.empty id)
        ((Builder.of m.fileSystem options start).started start) n put
        (buildGraph m.fileSystem options entry).result ∧
      (start :: put.map Prod.snd).Pairwise (fun p q => ¬ p ≈ q) ∧
      (∀ p ∈ start :: put.map Prod.snd, p ∈ m.files.map Prod.fst) ∧
      n ≤ (m.files.map Prod.fst).toFinset.card := by
  obtain ⟨n, put, hcourse⟩ := (Builder.of m.fileSystem options start).exists_course
    (.empty ((Builder.of m.fileSystem options start).visit ⟨[], [], [], []⟩ start).1)
    ((Builder.of m.fileSystem options start).started start)
  obtain ⟨hseparate, hknown, hn⟩ := hcourse.listed_of_started (Memory.mem_files_of_canonicalize hs)
  have hresult : (buildGraph m.fileSystem options entry).result =
      ((Builder.of m.fileSystem options start).explore
        (.empty ((Builder.of m.fileSystem options start).visit ⟨[], [], [], []⟩ start).1)
        ((Builder.of m.fileSystem options start).started start)).1 := by
    rw [buildGraph, show m.fileSystem.canonicalize entry = .ok start from hs]
    rfl
  have hnodup : (start :: put.map Prod.snd).Nodup :=
    hseparate.imp fun {p q} hne (he : p = q) => hne (he ▸ Setoid.refl p)
  refine ⟨_, n, put, hresult ▸ hcourse, hseparate, hknown, ?_⟩
  calc
    n ≤ (start :: put.map Prod.snd).length := hn
    _ = (start :: put.map Prod.snd).toFinset.card := (List.toFinset_card_of_nodup hnodup).symm
    _ ≤ (m.files.map Prod.fst).toFinset.card :=
      Finset.card_le_card fun p hp =>
        List.mem_toFinset.mpr (hknown p (List.mem_toFinset.mp hp))

-- Two links that lead to each other, with a file beside each of them, files that require each other
-- and themselves, and a call that means no file behind one that means a new file.
def entwined : Memory :=
  Memory.empty
    |>.addFile ⟨"/p/main.lua"⟩ "require './a' require './main'"
    |>.addFile ⟨"/p/a.lua"⟩ "require './b' require './main'"
    |>.addFile ⟨"/p/b.lua"⟩ "require './a' require './c' require './gone'"
    |>.addFile ⟨"/p/c.lua"⟩ "return 1"
    |>.addFile ⟨"/p/d.lua"⟩ "return 2"
    |>.addLink ⟨"/p/a.lua"⟩ ⟨"/p/b.lua"⟩
    |>.addLink ⟨"/p/b.lua"⟩ ⟨"/p/a.lua"⟩

theorem buildGraph_course_entwined :
    entwined.canonicalize ⟨"/p/main.lua"⟩ = .ok ⟨"/p/main.lua"⟩ ∧
      (buildGraph entwined.fileSystem .default ⟨"/p/main.lua"⟩).result.map (fun _ => ()) =
        .error (.unresolved "./gone" ⟨"/p/b.lua"⟩) ∧
      ∃ id n put, (Builder.of entwined.fileSystem .default ⟨"/p/main.lua"⟩).Course (.empty id)
          ((Builder.of entwined.fileSystem .default ⟨"/p/main.lua"⟩).started ⟨"/p/main.lua"⟩) n put
          (buildGraph entwined.fileSystem .default ⟨"/p/main.lua"⟩).result ∧
        (⟨"/p/main.lua"⟩ :: put.map Prod.snd).Pairwise (fun p q => ¬ p ≈ q) ∧
        (∀ p ∈ ⟨"/p/main.lua"⟩ :: put.map Prod.snd, p ∈ entwined.files.map Prod.fst) ∧
        n ≤ (entwined.files.map Prod.fst).toFinset.card := by
  have hs : entwined.canonicalize ⟨"/p/main.lua"⟩ = .ok ⟨"/p/main.lua"⟩ := by decide +kernel
  have herror : (buildGraph entwined.fileSystem .default ⟨"/p/main.lua"⟩).result.map
      (fun _ => ()) = .error (.unresolved "./gone" ⟨"/p/b.lua"⟩) := by
    decide +kernel
  exact ⟨hs, herror, buildGraph_course entwined .default hs⟩

end LuaBundle

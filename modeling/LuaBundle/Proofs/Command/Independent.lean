import LuaBundle.Command.Run
import LuaBundle.Proofs.File.Beside
import LuaBundle.Proofs.Module.Lookups

namespace LuaBundle

open LuaBundle.Path (ofNames)

variable {t s : Tree} {options : Options} {D : Location} {us : List Tree} {goal other : Target}
  {goals done order : List Target} {bundle : String} {p q : Path}

namespace Target

-- The paths of the files that a target makes.
def destinations (goal : Target) : List Path :=
  goal.output :: (goal.copies.map (·.destination) ++ goal.stringify.toList)

-- The files that a target makes of a bundle, without the directories for them.
def files (goal : Target) (bundle : String) : List Change :=
  .write goal.output bundle.toUTF8 ::
    (goal.copies.map (fun c => .copy c.source c.destination) ++
      (goal.stringify.map fun p => .write p (Bundle.stringify bundle).toUTF8).toList)

theorem changes_eq (goal : Target) (bundle : String) :
    goal.changes bundle = Change.steps (goal.files bundle) := by
  unfold changes files Change.steps
  rw [List.flatMap_cons, List.flatMap_append, List.flatMap_map, ← List.append_assoc]
  refine congrArg₂ _ rfl ?_
  cases goal.stringify with
  | none => rfl
  | some p => simp [Change.writing, Change.destination]

theorem destination_files (goal : Target) (bundle : String) :
    (goal.files bundle).map Change.destination = goal.destinations := by
  unfold files destinations
  cases goal.stringify <;> simp [Change.destination]

theorem files_destination {c : Change} (hc : c ∈ goal.files bundle) : c.Files c.destination := by
  unfold files at hc
  simp only [List.mem_cons, List.mem_append, List.mem_map, Option.mem_toList,
    Option.map_eq_some_iff] at hc
  rcases hc with rfl | ⟨copy, -, rfl⟩ | ⟨p, -, rfl⟩
  · exact .write
  · exact .copy
  · exact .write

-- The paths that a target looks up: those of its bundle, and if there is one those of the files
-- that are copied beside it, as far as it comes.
def lookups (goal : Target) (options : Options) (t : Tree) : List Path :=
  LuaBundle.lookups t.fileSystem options goal.entry ++
    match (buildGraph t.fileSystem options goal.entry).result with
    | .error _ => []
    | .ok g => (Change.attempted t (goal.changes (Bundle.emit g))).filterMap Change.source?

end Target

-- What a command tells, whatever tree it leaves.
def Report.told (r : Report) : String × List Event × Option Failure :=
  (r.output, r.events, r.failure)

-- Targets whose files lie apart from each other below a directory.
structure Placed (t : Tree) (D : Location) (goals : List Target) : Prop where
  orderly : t.Orderly
  plain : ∀ p ∈ goals.flatMap Target.destinations, p.Plain
  below : ∀ p ∈ goals.flatMap Target.destinations, D <+: p.names ∧ p.names ≠ D
  apart : (goals.flatMap Target.destinations).Pairwise fun p q =>
    ¬p.names <+: q.names ∧ ¬q.names <+: p.names

-- Targets none of which looks at places that others may change.
structure Independent (t : Tree) (options : Options) (D : Location) (goals : List Target) : Prop
    extends Placed t D goals where
  unseen : ∀ goal ∈ goals, ∀ p ∈ goal.lookups options t, ∀ q ∈ t.looksAt p, ¬t.Open D q

theorem Independent.perm (h : Independent t options D goals) (hp : order.Perm goals) :
    Independent t options D order := by
  have hdest := List.Perm.flatMap_right Target.destinations hp
  refine ⟨⟨h.orderly, fun p hmem => h.plain p (hdest.mem_iff.mp hmem),
    fun p hmem => h.below p (hdest.mem_iff.mp hmem), ?_⟩,
    fun goal hg => h.unseen goal (hp.mem_iff.mp hg)⟩
  exact (hdest.pairwise_iff fun hpq => ⟨hpq.2, hpq.1⟩).mpr h.apart

theorem Placed.apart_of_mem (h : Placed t D goals) (hg : goal ∈ goals) (ho : other ∈ goals)
    (hne : goal ≠ other) (hp : p ∈ goal.destinations) (hq : q ∈ other.destinations) :
    ¬p.names <+: q.names ∧ ¬q.names <+: p.names := by
  let R (goal other : Target) : Prop := ∀ p ∈ goal.destinations, ∀ q ∈ other.destinations,
    ¬p.names <+: q.names ∧ ¬q.names <+: p.names
  have hsymm : Std.Symm R := ⟨fun _ _ h q hq p hp => (h p hp q hq).symm⟩
  have hpair : goals.Pairwise R := (List.pairwise_flatMap.mp h.apart).2
  exact hpair.forall hg ho hne p hp q hq

theorem Placed.nodup (h : Placed t D goals) : goals.Nodup := by
  refine (List.pairwise_flatMap.mp h.apart).2.imp fun {goal other} hpair => ?_
  rintro rfl
  exact (hpair goal.output List.mem_cons_self goal.output List.mem_cons_self).1 List.prefix_rfl

theorem Independent.single (h : Independent t options D goals) (hg : goal ∈ goals) :
    Independent t options D [goal] := by
  have hsub : ∀ p ∈ [goal].flatMap Target.destinations, p ∈ goals.flatMap Target.destinations := by
    intro p hp
    rw [List.flatMap_singleton] at hp
    exact List.mem_flatMap.mpr ⟨goal, hg, hp⟩
  refine ⟨⟨h.orderly, fun p hp => h.plain p (hsub p hp), fun p hp => h.below p (hsub p hp), ?_⟩,
    fun other ho => h.unseen other (List.mem_singleton.mp ho ▸ hg)⟩
  rw [List.flatMap_singleton]
  exact (List.pairwise_flatMap.mp h.apart).1 goal hg

theorem Independent.lies {c : Change} (h : Independent t options D [goal])
    (hc : c ∈ goal.files bundle) : c.Lies D (goal.destinations.map Path.names) := by
  have hmem : c.destination ∈ goal.destinations :=
    goal.destination_files bundle ▸ List.mem_map_of_mem hc
  have hflat : c.destination ∈ [goal].flatMap Target.destinations := by
    rwa [List.flatMap_singleton]
  obtain ⟨hbelow, hne⟩ := h.below _ hflat
  exact ⟨Target.files_destination hc, h.plain _ hflat, hbelow, hne, List.mem_map_of_mem hmem⟩

namespace Job

-- A target by itself.
abbrev alone (options : Options) (t : Tree) (goal : Target) : Report :=
  (target goal).run options t

-- A target after others: it comes to the same as by itself.
theorem run_alike (h : Independent t options D [goal]) (hs : t.Within D s) (hm : t.Merged us s)
    (hus : ∀ u ∈ us, ∀ p ∈ goal.destinations, t.Spares u p.names) :
    ((target goal).run options s).told = (alone options t goal).told ∧
      t.Beside D (goal.destinations.map Path.names) us (alone options t goal).tree
        ((target goal).run options s).tree := by
  have hunseen := h.unseen goal List.mem_cons_self
  have hbuild : buildGraph s.fileSystem options goal.entry =
      buildGraph t.fileSystem options goal.entry := by
    refine buildGraph_congr fun p hp => ?_
    have hagree := hs.agree h.orderly (hunseen p (List.mem_append_left _ hp))
    exact ⟨hagree.isFile_eq, hagree.read_eq, hagree.canonicalize_eq⟩
  have hbeside : t.Beside D (goal.destinations.map Path.names) us t s :=
    ⟨.refl h.orderly, hs, hm.cons_self, .refl t _⟩
  have hentry : (target goal).entry = goal.entry := rfl
  unfold alone run
  rw [hentry, hbuild]
  cases hresult : (buildGraph t.fileSystem options goal.entry).result with
  | error e =>
    simp only [hresult]
    exact ⟨rfl, hbeside⟩
  | ok g =>
    have hfiles : ∀ c ∈ goal.files (Bundle.emit g), c.Lies D (goal.destinations.map Path.names) ∧
        ∀ u ∈ us, t.Spares u c.destination.names := fun c hc =>
      ⟨h.lies hc, fun u hu => hus u hu _ (goal.destination_files _ ▸ List.mem_map_of_mem hc)⟩
    obtain ⟨hfailure, hbeside⟩ := Change.applyAll_steps_alike h.orderly hbeside hfiles
      fun c hc p hp => hunseen p <| List.mem_append_right _ <| by
        rw [hresult]
        exact List.mem_filterMap.mpr ⟨c, goal.changes_eq _ ▸ hc, hp⟩
    simp only [hresult]
    rw [← goal.changes_eq] at hfailure hbeside
    cases hv : Change.applyAll t (goal.changes (Bundle.emit g)) with
    | mk v failure =>
      cases hs : Change.applyAll s (goal.changes (Bundle.emit g)) with
      | mk s' failure' =>
        rw [hv, hs] at hfailure hbeside
        obtain rfl : failure' = failure := hfailure
        cases failure' with
        | none => exact ⟨rfl, hbeside⟩
        | some => exact ⟨rfl, hbeside⟩

theorem touched_alone (h : Independent t options D goals) (hg : goal ∈ goals) :
    t.Touched (goal.destinations.map Path.names) (alone options t goal).tree :=
  (run_alike (h.single hg) (.refl h.orderly) (.nil t) (by simp)).2.touched

theorem spares_alone (h : Independent t options D goals) (hg : goal ∈ goals) (ho : other ∈ goals)
    (hne : goal ≠ other) (hp : p ∈ goal.destinations) :
    t.Spares (alone options t other).tree p.names := by
  refine (touched_alone h ho).spares fun place hplace => ?_
  obtain ⟨q, hq, rfl⟩ := List.mem_map.mp hplace
  exact (h.apart_of_mem hg ho hne hp hq).symm

-- Targets in turn: each comes to the same as by itself, and what it does stays.
theorem runEach_alike (done : List Target) (h : Independent t options D (goals ++ done))
    (hs : t.Within D s) (hm : t.Merged (done.map fun g => (alone options t g).tree) s) :
    (runEach options s (goals.map target)).2.map (fun x => (x.1, x.2.told)) =
        goals.map (fun g => (target g, (alone options t g).told)) ∧
      t.Merged ((goals.reverse ++ done).map fun g => (alone options t g).tree)
        (runEach options s (goals.map target)).1 ∧
      (runEach options s (goals.map target)).1.here = t.here := by
  induction goals generalizing done s with
  | nil => exact ⟨rfl, hm, hs.here⟩
  | cons goal goals ih =>
    have hmem : goal ∈ goal :: goals ++ done := List.mem_cons_self
    have hus : ∀ u ∈ done.map fun g => (alone options t g).tree, ∀ p ∈ goal.destinations,
        t.Spares u p.names := by
      intro u hu p hp
      obtain ⟨other, ho, rfl⟩ := List.mem_map.mp hu
      have hother : other ∈ goals ++ done := List.mem_append_right _ ho
      exact spares_alone h hmem (.tail _ hother)
        (fun heq => (List.nodup_cons.mp h.nodup).1 (heq ▸ hother)) hp
    obtain ⟨htold, hbeside⟩ := run_alike (h.single hmem) hs hm hus
    have hperm : (goals ++ goal :: done).Perm (goal :: goals ++ done) := List.perm_middle
    obtain ⟨hreports, hmerged, hhere⟩ := ih (goal :: done) (h.perm hperm) hbeside.within'
      hbeside.merged
    rw [List.map_cons, runEach, List.map_cons]
    refine ⟨?_, ?_, hhere⟩
    · rw [List.map_cons, hreports, htold]
    · rwa [List.reverse_cons, List.append_assoc]

theorem runEach_order (h : Independent t options D goals) (hp : order.Perm goals) :
    (runEach options t (order.map target)).2.map (fun x => (x.1, x.2.told)) =
        order.map (fun g => (target g, (alone options t g).told)) ∧
      t.Merged (order.reverse.map fun g => (alone options t g).tree)
        (runEach options t (order.map target)).1 ∧
      (runEach options t (order.map target)).1.here = t.here := by
  have h : Independent t options D (order ++ []) := h.perm (by rwa [List.append_nil])
  simpa using runEach_alike [] h (.refl h.orderly) (.nil t)

end Job

-- The failures of a run as far as they are told.
theorem Work.failure_run (options : Options) (t : Tree) (goals : List Target) :
    (Work.run ⟨options, goals.map .target⟩ t).failure =
      let failed := ((Job.runEach options t (goals.map .target)).2.map
        fun x => (x.1, x.2.told)).countP fun x => x.2.2.2.isSome
      if failed = 0 then none else some (.failedTargets failed goals.length) := by
  have hcount (reports : List (Job × Report)) (event? : Job × Report → Option Event)
      (h : ∀ x, (event? x).isSome = x.2.failure.isSome) :
      (reports.filterMap event?).length =
        (reports.map fun x => (x.1, x.2.told)).countP fun x => x.2.2.2.isSome := by
    rw [List.length_filterMap_eq_countP, List.countP_map]
    exact List.countP_congr fun x _ => by rw [h x]; rfl
  simp only [Work.run, List.isEmpty_iff_length_eq_zero, List.length_map]
  rw [hcount _ _ fun x => by simp [Job.failureEvent?]]

-- Independent targets may run in any order. Each tells what it tells when it runs alone, the trees
-- that they leave are alike, as many of them fail, and a target leaves at its own paths what it
-- leaves there when it runs alone.
theorem targets_in_any_order (h : Independent t options D goals) (hp : order.Perm goals) :
    let run (goals : List Target) := Job.runEach options t (goals.map .target)
    (run order).2.map (fun x => (x.1, x.2.told)) =
        order.map (fun g => (.target g, (Job.alone options t g).told)) ∧
      (run order).1.here = (run goals).1.here ∧
      (∀ place, (run order).1.get? place = (run goals).1.get? place) ∧
      (Work.run ⟨options, order.map .target⟩ t).failure =
        (Work.run ⟨options, goals.map .target⟩ t).failure ∧
      ∀ goal ∈ goals, ∀ p ∈ goal.destinations,
        (run order).1.get? p.names = (Job.alone options t goal).tree.get? p.names := by
  obtain ⟨htold, hmerged, hhere⟩ := Job.runEach_order h hp
  obtain ⟨htold', hmerged', hhere'⟩ := Job.runEach_order h (.refl goals)
  refine ⟨htold, hhere.trans hhere'.symm, ?_, ?_, fun goal hg p hpath => ?_⟩
  · refine fun place => hmerged'.get?_eq hmerged (fun u => ?_) place
    simp only [List.mem_map, List.mem_reverse, hp.mem_iff]
  · rw [Work.failure_run, Work.failure_run, htold, htold', hp.length_eq]
    simp only [(hp.map _).countP_eq]
  · by_cases hsame : (Job.alone options t goal).tree.get? p.names = t.get? p.names
    case neg =>
      exact hmerged.changed _ (List.mem_map_of_mem (by simpa using hp.mem_iff.mpr hg)) _ hsame
    case pos =>
      refine (hmerged.kept _ fun u hu => ?_).trans hsame.symm
      obtain ⟨other, ho, rfl⟩ := List.mem_map.mp hu
      have ho : other ∈ goals := hp.mem_iff.mp (List.mem_reverse.mp ho)
      by_cases heq : goal = other
      case pos => exact heq ▸ hsame
      case neg =>
        exact (Job.spares_alone h hg ho heq hpath _ List.prefix_rfl).resolve_right
          fun hother => hother.1 rfl

namespace Workshop

def tree : Tree where
  entries := [
    (["src"], .directory),
    (["src", "a.lua"], .file "return 1\n".toUTF8),
    (["src", "b.lua"], .file "return require('./a')\n".toUTF8),
    (["src", "notes.txt"], .file "notes\n".toUTF8),
    (["dist"], .directory)]
  here := []

theorem orderly_tree : tree.Orderly :=
  .of_entries (by decide +kernel)

theorem placed {goals : List Target}
    (hplain : ∀ p ∈ goals.flatMap Target.destinations, p.isAbsolute ∧ p.clean = p)
    (hbelow : ∀ p ∈ goals.flatMap Target.destinations, D <+: p.names ∧ p.names ≠ D)
    (hapart : (goals.flatMap Target.destinations).Pairwise fun p q =>
      ¬p.names <+: q.names ∧ ¬q.names <+: p.names) : Placed tree D goals :=
  ⟨orderly_tree, fun p hp => ⟨(hplain p hp).1, (hplain p hp).2⟩, hbelow, hapart⟩

def keeper : Target :=
  ⟨some "keeper", ⟨"/src/a.lua"⟩, ⟨"/dist/a/a.lua"⟩,
    [⟨⟨"/src/notes.txt"⟩, ⟨"/dist/doc/notes.txt"⟩⟩], some ⟨"/dist/a.txt"⟩⟩

-- A target that fails after its bundle is written.
def loser : Target :=
  ⟨some "loser", ⟨"/src/b.lua"⟩, ⟨"/dist/b.lua"⟩,
    [⟨⟨"/src/gone.txt"⟩, ⟨"/dist/doc/gone.txt"⟩⟩], none⟩

theorem independent_keeper_loser : Independent tree .default ["dist"] [keeper, loser] where
  toPlaced := by refine placed ?_ ?_ ?_ <;> decide +kernel
  unseen := by decide +kernel

theorem keeper_loser_in_any_order :
    Independent tree .default ["dist"] [keeper, loser] ∧
      [loser, keeper].Perm [keeper, loser] ∧
      (Work.run ⟨.default, [.target loser, .target keeper]⟩ tree).failure.map Failure.line =
        some "1 of 2 target(s) failed" ∧
      ∀ p ∈ keeper.destinations,
        (Job.runEach .default tree [.target loser, .target keeper]).1.get? p.names =
          (Job.alone .default tree keeper).tree.get? p.names := by
  have hp : [loser, keeper].Perm [keeper, loser] := .swap _ _ _
  obtain ⟨-, -, -, hfailure, hown⟩ := targets_in_any_order independent_keeper_loser hp
  refine ⟨independent_keeper_loser, hp, ?_, hown keeper List.mem_cons_self⟩
  exact (congrArg (Option.map Failure.line) hfailure).trans (by decide +kernel)

-- A target that makes a directory, and one whose entry is found by a way out of that directory.
def crossing : List Target := [
  ⟨some "opener", ⟨"/src/a.lua"⟩, ⟨"/dist/sub/a.lua"⟩, [], none⟩,
  ⟨some "passer", ⟨"/src/../dist/sub/../../src/a.lua"⟩, ⟨"/dist/b.lua"⟩, [], none⟩]

-- A target that makes a directory, and one that has that directory for an entry.
def climbing : List Target := [
  ⟨some "opener", ⟨"/src/a.lua"⟩, ⟨"/out/dist/a.lua"⟩, [], none⟩,
  ⟨some "passer", ⟨"/out"⟩, ⟨"/out/dist/b.lua"⟩, [], none⟩]

-- Whether a path lies under a directory by its text, as it is written or after cleaning.
def IsWrittenUnder (D : Location) (p : Path) : Prop :=
  (ofNames D).components <+: p.components ∨ (ofNames D).components <+: p.clean.components

instance (D : Location) (p : Path) : Decidable (IsWrittenUnder D p) :=
  inferInstanceAs (Decidable (_ ∨ _))

-- Nothing that targets look up lies under a directory, neither at first nor after one of them.
def NothingUnder (D : Location) (goals : List Target) : Prop :=
  ∀ t ∈ tree :: goals.map fun g => (Job.alone .default tree g).tree,
    ∀ goal ∈ goals, ∀ p ∈ goal.lookups .default t, ¬IsWrittenUnder D p

instance (D : Location) (goals : List Target) : Decidable (NothingUnder D goals) :=
  inferInstanceAs (Decidable (∀ t ∈ _, _))

-- Each target by its name, with the failure it tells of.
def failures (goals : List Target) : List (String × Option String) :=
  (Job.runEach .default tree (goals.map .target)).2.map fun x =>
    (x.1.name, x.2.failure.map Failure.line)

-- It is not enough that no path lies under the directory. A path may lead out of a directory there
-- that another target makes, and a path to a directory that is missing around that of the files
-- fails in another way once they are made.
theorem order_matters_on_the_way :
    (Placed tree ["dist"] crossing ∧ NothingUnder ["dist"] crossing ∧
      failures crossing = [("opener", none), ("passer", none)] ∧
      failures crossing.reverse = [
        ("passer", some ("IO error on /src/../dist/sub/../../src/a.lua: " ++
          "No such file or directory (os error 2): No such file or directory (os error 2)")),
        ("opener", none)]) ∧
    (Placed tree ["out", "dist"] climbing ∧ NothingUnder ["out", "dist"] climbing ∧
      failures climbing = [("opener", none), ("passer", some
        "IO error on /out: Is a directory (os error 21): Is a directory (os error 21)")] ∧
      failures climbing.reverse = [("passer", some ("IO error on /out: " ++
          "No such file or directory (os error 2): No such file or directory (os error 2)")),
        ("opener", none)]) := by
  refine ⟨⟨placed ?_ ?_ ?_, ?_, ?_, ?_⟩, placed ?_ ?_ ?_, ?_, ?_, ?_⟩
  all_goals decide +kernel

end Workshop

end LuaBundle

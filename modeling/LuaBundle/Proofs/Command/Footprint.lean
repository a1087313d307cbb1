import LuaBundle.Proofs.Bundle.Stringified
import LuaBundle.Proofs.Command.Independent
import LuaBundle.Proofs.File.Footprint

namespace LuaBundle

variable {t : Tree} {goal : Target} {bundle : String}

namespace Target

-- The files of a target lie apart if its destinations do and it copies none of them.
theorem apart_files {here : Location} (hnodup : (goal.destinations.map (Path.place here)).Nodup)
    (hsource : ∀ c ∈ goal.copies, c.source.place here ∉ goal.destinations.map (Path.place here)) :
    Change.Apart here (goal.files bundle) := by
  have hplaces : (goal.files bundle).map (fun c => c.destination.place here) =
      goal.destinations.map (Path.place here) := by
    rw [← goal.destination_files bundle, List.map_map]
    rfl
  refine ⟨hplaces ▸ hnodup, fun c hc p hp => ?_⟩
  rw [hplaces]
  unfold files at hc
  simp only [List.mem_cons, List.mem_append, List.mem_map, Option.mem_toList,
    Option.map_eq_some_iff] at hc
  rcases hc with rfl | ⟨copy, hcopy, rfl⟩ | ⟨p, -, rfl⟩
  case inl => cases hp
  case inr.inl => exact Option.some.inj hp ▸ hsource copy hcopy
  case inr.inr => cases hp

end Target

-- A target touches nothing but its destinations and the directories that they need. It leaves the
-- tree alone if there is no bundle, and if it succeeds its files are there, each with what belongs
-- in it: the bundle, the copied content, and the chunk that the bundle is had back from.
theorem target_touches_only_destinations (ht : t.Linkless) (options : Options) (goal : Target) :
    let built := (buildGraph t.fileSystem options goal.entry).result
    let report := (Job.target goal).run options t
    let places := goal.destinations.map (Path.place t.here)
    (∀ e, built = .error e → report.tree = t) ∧
      report.tree.here = t.here ∧ (∀ q, t.Fate report.tree goal.destinations q) ∧
      (report.failure = none → places.Nodup →
        (∀ c ∈ goal.copies, c.source.place t.here ∉ places) →
        ∃ g, built = .ok g ∧ report.tree.bytes goal.output = .ok (Bundle.emit g).toUTF8 ∧
          (∀ c ∈ goal.copies, ∃ content, t.get? (c.source.place t.here) = some (.file content) ∧
            report.tree.bytes c.source = .ok content ∧
            report.tree.bytes c.destination = .ok content) ∧
          ∀ p ∈ goal.stringify, ∃ chunk,
            report.tree.bytes p = .ok chunk.toUTF8 ∧ chunk = Bundle.stringify (Bundle.emit g) ∧
              Bundle.Carries chunk (Bundle.emit g)) := by
  intro built report places
  cases hresult : (buildGraph t.fileSystem options goal.entry).result with
  | error e =>
    have hreport : report.tree = t ∧ report.failure = some (.bundle e) := by
      simp only [report, Job.run, Job.entry, hresult, and_self]
    obtain ⟨htree, hfailure⟩ := hreport
    rw [htree, hfailure]
    exact ⟨fun _ _ => rfl, rfl, fun _ => .kept rfl, fun h => by cases h⟩
  | ok g =>
    have hfiles := fun c (hc : c ∈ goal.files (Bundle.emit g)) => Target.files_destination hc
    have hreport : report.tree = (Change.applyAll t (Change.steps (goal.files (Bundle.emit g)))).1 ∧
        (report.failure = none →
          (Change.applyAll t (Change.steps (goal.files (Bundle.emit g)))).2 = none) := by
      simp only [report, Job.run, Job.entry, hresult, goal.changes_eq]
      split
      case h_1 h => simp [h]
      case h_2 h => simp [h]
    obtain ⟨htree, hfailure⟩ := hreport
    have hfootprint := Change.applyAll_footprint ht (Change.serves_of_mem_steps hfiles)
    rw [goal.destination_files] at hfootprint
    rw [htree]
    refine ⟨fun e he => ?_, hfootprint.here, hfootprint.fate, fun hok hnodup hsource => ?_⟩
    · cases hresult.symm.trans he
    · have hleft := Change.applyAll_steps_left ht hfiles (Target.apart_files hnodup hsource)
        (hfailure hok)
      refine ⟨g, hresult, hleft _ List.mem_cons_self, fun c hc => ?_, fun p hp => ?_⟩
      · exact hleft (.copy c.source c.destination)
          (.tail _ (List.mem_append_left _ (List.mem_map.mpr ⟨c, hc, rfl⟩)))
      · have hp : goal.stringify = some p := hp
        exact ⟨_, hleft (.write p _) (by simp [Target.files, hp]), rfl,
          Bundle.carries_stringify (Bundle.emit g)⟩

namespace Workshop

-- A target with paths that wander about, through directories that it makes itself.
def wanderer : Target :=
  ⟨none, ⟨"src/b.lua"⟩, ⟨"dist/new/../out.lua"⟩,
    [⟨⟨"./src/notes.txt"⟩, ⟨"dist/doc/../doc//notes.txt"⟩⟩], some ⟨"../dist/./out.txt"⟩⟩

theorem target_touches_only_destinations_wanderer :
    let report := (Job.target wanderer).run .default tree
    let places := wanderer.destinations.map (Path.place tree.here)
    tree.Linkless ∧ report.failure = none ∧ places.Nodup ∧
      (∀ c ∈ wanderer.copies, c.source.place tree.here ∉ places) ∧
      (∀ q, tree.Fate report.tree wanderer.destinations q) ∧
      ∃ g, (buildGraph tree.fileSystem .default wanderer.entry).result = .ok g ∧
        report.tree.bytes wanderer.output = .ok (Bundle.emit g).toUTF8 ∧
        ∃ chunk, report.tree.bytes ⟨"../dist/./out.txt"⟩ = .ok chunk.toUTF8 ∧
          Bundle.Carries chunk (Bundle.emit g) := by
  have hfailure : ((Job.target wanderer).run .default tree).failure = none :=
    Option.isNone_iff_eq_none.mp (by decide +kernel)
  have hnodup : (wanderer.destinations.map (Path.place tree.here)).Nodup := by decide +kernel
  have hsource : ∀ c ∈ wanderer.copies,
      c.source.place tree.here ∉ wanderer.destinations.map (Path.place tree.here) := by
    decide +kernel
  obtain ⟨-, -, hfate, hdone⟩ :=
    target_touches_only_destinations orderly_tree.linkless .default wanderer
  obtain ⟨g, hresult, houtput, -, hstringified⟩ := hdone hfailure hnodup hsource
  obtain ⟨chunk, hchunk, -, hcarries⟩ := hstringified _ rfl
  exact ⟨orderly_tree.linkless, hfailure, hnodup, hsource, hfate, g, hresult, houtput, chunk,
    hchunk, hcarries⟩

end Workshop

end LuaBundle

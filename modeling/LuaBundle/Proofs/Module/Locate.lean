import LuaBundle.Module.Locate
import LuaBundle.Proofs.Path.Join

namespace LuaBundle

namespace Path

variable {base p q : Path}

theorem empty_join (p : Path) : empty.join p = p := by
  unfold join
  split
  case isTrue => rfl
  case isFalse => simp [empty, isEmpty]

theorem isEmpty_ofString (text : String) :
    (ofString text).isEmpty = text.toList.isEmpty := by
  rw [Bool.eq_iff_iff, isEmpty, List.isEmpty_iff, List.isEmpty_iff, bytes_ofString,
    Text.encode_eq_nil_iff]

theorem isAbsolute_ofString (text : String) :
    (ofString text).isAbsolute = decide (text.toList.head? = some '/') :=
  decide_eq_decide.mpr (Text.head?_encode_iff (d := '/') (by decide))

theorem ofString_append (text ending : String) :
    ofString (text ++ ending) = (ofString text).withEnding ending :=
  eq_of_bytes_eq (by simp [ofString, withEnding, Text.encode_append])

theorem isEmpty_eq_false_of_isAbsolute (h : p.isAbsolute) : p.isEmpty = false := by
  cases hs : p.bytes with
  | nil => simp [isAbsolute, hs] at h
  | cons => simp [isEmpty, hs]

-- A path that is not empty begins as it does whatever stands behind it.
theorem isAbsolute_withEnding (hp : p.isEmpty = false) (ending : OsString) :
    (p.withEnding ending).isAbsolute = p.isAbsolute := by
  obtain ⟨c, r, hs⟩ := List.exists_cons_of_ne_nil (l := p.bytes) (by simpa [isEmpty] using hp)
  simp [isAbsolute, withEnding, hs]

theorem join_withEnding (hp : p.isEmpty = false) (hr : p.isAbsolute = false) (ending : OsString) :
    (base.join p).withEnding ending = base.join (p.withEnding ending) := by
  have he := (isAbsolute_withEnding hp ending).trans hr
  cases hb : base.isEmpty with
  | true =>
    obtain rfl : base = empty := eq_of_bytes_eq (by simpa [isEmpty, empty] using hb)
    rw [empty_join, empty_join]
  | false =>
    refine eq_of_bytes_eq ?_
    rw [bytes_join hb he]
    simp only [withEnding, bytes_join hb hr, List.append_assoc]

theorem separator_join (hb : base.isEmpty = false) (hp : p.isEmpty = false)
    (hr : p.isAbsolute = false) : separator (base.join p) = separator p := by
  obtain ⟨c, r, hs⟩ := List.exists_cons_of_ne_nil (l := p.bytes) (by simpa [isEmpty] using hp)
  simp [separator, bytes_join hb hr, hs, List.getLast?_append, List.getLast?_cons]

theorem join_join (hb : base.isEmpty = false) (hp : p.isEmpty = false) (hr : p.isAbsolute = false)
    (hq : q.isAbsolute = false) : (base.join p).join q = base.join (p.join q) := by
  have hbase : (base.join p).isEmpty = false := by
    obtain ⟨c, r, hs⟩ :=
      List.exists_cons_of_ne_nil (l := base.bytes) (by simpa [isEmpty] using hb)
    simp [isEmpty, bytes_join hb hr, hs]
  have hpq : (p.join q).isAbsolute = false := (isAbsolute_join hp hq).trans hr
  refine eq_of_bytes_eq ?_
  rw [bytes_join hbase hq, bytes_join hb hpq, bytes_join hb hr, bytes_join hp hq,
    separator_join hb hp hr]
  simp only [List.append_assoc]

end Path

namespace Locator

open LuaBundle.Path

variable {extension reference : String} {base rest : Path}

theorem isEmpty_undotted (h : (ofString reference).isEmpty = false) :
    (undotted reference).isEmpty = false := by
  rw [isEmpty_ofString] at h
  rw [undotted, isEmpty_ofString, String.toList_ofList]
  simpa using h

-- A dotted name stands for a path within a directory.
theorem descends_undotted (h : isDotted reference) : (undotted reference).Descends where
  relative := by
    simp only [isDotted, Bool.and_eq_true, decide_eq_true_eq] at h
    have hslash : '/' ∉ reference.toList := by simpa using h.1.2
    rw [undotted, isAbsolute_ofString, String.toList_ofList]
    cases hs : reference.toList with
    | nil => rfl
    | cons c s =>
      have hdot : c ≠ '.' := by simpa [hs] using h.1.1.2
      have hc : c ≠ '/' := by
        rintro rfl
        simp [hs] at hslash
      simp [hdot, hc]
  noUp hup := by
    have hdot := Path.mem_of_mem_splitOn (List.mem_filter.mp hup).1 List.mem_cons_self
    rw [undotted, bytes_ofString, String.toList_ofList] at hdot
    obtain ⟨c, -, hc⟩ := List.mem_map.mp ((Text.mem_encode_iff (d := '.') (by decide)).mp hdot)
    split at hc
    case isTrue => exact absurd hc (by decide)
    case isFalse hne => exact hne hc

-- The files that a relative reference may mean lie alike under every directory.
theorem candidates_eq_map (hb : base.isEmpty = false) (hne : (ofString reference).isEmpty = false)
    (hr : (ofString reference).isAbsolute = false) :
    candidates extension reference base =
      (candidates extension reference .empty).map base.join := by
  have hinit : (ofString ("init" ++ ("." ++ extension))).isAbsolute = false := by
    rw [ofString_append, isAbsolute_withEnding rfl]
    rfl
  unfold candidates
  simp only [empty_join, join_withEnding hne hr, join_join hb hne hr hinit]
  by_cases hd : isDotted reference
  case pos =>
    have ha := (descends_undotted hd).relative
    have hu := isEmpty_undotted hne
    simp [hd, join_withEnding hu ha, join_join hb hu ha hinit]
  case neg => simp [hd]

section Descends

variable {p q : Path}

theorem descends_withEnding {ending : OsString} (h : p.Descends) (hne : p.isEmpty = false)
    (hs : slash ∉ ending.bytes) (hl : 2 < ending.bytes.length) :
    (p.withEnding ending).Descends where
  relative := (isAbsolute_withEnding hne ending).trans h.relative
  noUp hup := by
    rcases mem_pieces_append hs hup with hup | ⟨stem, he⟩
    case inl => exact h.noUp hup
    case inr =>
      have := congrArg List.length he
      simp at this
      omega

theorem descends_join (h : p.Descends) (hne : p.isEmpty = false) (hq : q.Descends) :
    (p.join q).Descends where
  relative := (isAbsolute_join hne hq.relative).trans h.relative
  noUp hup := by
    rw [pieces_join hne hq.relative] at hup
    exact (List.mem_append.mp hup).elim h.noUp hq.noUp

-- A reference that never leads up means files that lie within a directory.
theorem descends_of_mem_candidates (h : (ofString reference).Descends)
    (hne : (ofString reference).isEmpty = false) (hs : slash ∉ (OsString.ofString extension).bytes)
    (hl : 1 < (OsString.ofString extension).bytes.length)
    (hrest : rest ∈ candidates extension reference .empty) : rest.Descends := by
  have hbytes : (OsString.ofString ("." ++ extension)).bytes =
      dot :: (OsString.ofString extension).bytes := by
    rw [OsString.bytes_ofString, String.toList_append, Text.encode_append]
    rfl
  have hending : slash ∉ (OsString.ofString ("." ++ extension)).bytes := by
    rw [hbytes]
    exact mt (List.mem_cons.mp ·|>.resolve_left (by decide)) hs
  have hlength : 2 < (OsString.ofString ("." ++ extension)).bytes.length := by
    rw [hbytes, List.length_cons]
    omega
  have hinit : (ofString ("init" ++ ("." ++ extension))).Descends := by
    rw [ofString_append]
    exact descends_withEnding (p := ⟨"init"⟩) ⟨by decide, by decide⟩ (by decide) hending hlength
  have hnested : ∀ p ∈ if isDotted reference then [undotted reference] else [],
      p.Descends ∧ p.isEmpty = false := by
    intro p hp
    split at hp
    case isFalse => cases hp
    case isTrue hd =>
      obtain rfl := List.mem_singleton.mp hp
      exact ⟨descends_undotted hd, isEmpty_undotted hne⟩
  simp only [candidates, empty_join, List.mem_append, List.mem_map, List.mem_cons,
    List.not_mem_nil, or_false] at hrest
  rcases hrest with (((rfl | rfl) | ⟨p, hp, rfl⟩) | rfl) | ⟨p, hp, rfl⟩
  · exact h
  · exact descends_withEnding h hne hending hlength
  · exact descends_withEnding (hnested p hp).1 (hnested p hp).2 hending hlength
  · exact descends_join h hne hinit
  · exact descends_join (hnested p hp).1 (hnested p hp).2 hinit

end Descends

-- Where a reference leads does not hang on what the files say.
theorem locate_congr {l l' : Locator} (hr : l'.roots = l.roots)
    (he : l'.extension = l.extension) (hf : l'.files.isFile = l.files.isFile)
    (hc : l'.files.canonicalize = l.files.canonicalize) : l'.locate = l.locate := by
  funext reference requester
  rw [locate, locate, allCandidates, allCandidates, hr, he, hf, hc]

end Locator
end LuaBundle

import LuaBundle.Proofs.Module.Needed

namespace LuaBundle

-- The file that an error names, as its path or as the one that requires.
def BundleError.place : BundleError → Path
  | unresolved _ requester => requester
  | dynamic requester _ => requester
  | file path _ => path

namespace Builder

variable {b : Builder} {start p q : Path} {met ts : List Path} {k n : Nat} {e : BundleError}

section Discovered

-- The calls of a file that are not external, as far as the file can be read and scanned.
def bundledCalls (b : Builder) (p : Path) : List StaticCall :=
  match b.locator.files.read p with
  | .error _ => []
  | .ok source =>
    match Requires.of source with
    | .error _ => []
    | .ok requires => requires.calls.filter fun c => !b.options.isExternal c.literal

-- The files that the calls of a file mean, in the order of the calls.
def targets (b : Builder) (p : Path) : List Path :=
  (b.bundledCalls p).filterMap fun c => (b.locator.locate c.literal p).toOption

-- A file that is met goes behind those that were met before, unless it is one of them.
def meet (met : List Path) (p : Path) : List Path :=
  if p ∈ met then met else met ++ [p]

-- The files that are discovered, breadth first, up to the turns of the first `n` of them.
def discovered (b : Builder) (start : Path) : Nat → List Path
  | 0 => [start]
  | n + 1 =>
    ((b.discovered start n)[n]?.toList.flatMap b.targets).foldl meet (b.discovered start n)

-- The file whose turn is the one after the first `n`.
def nth? (b : Builder) (start : Path) (n : Nat) : Option Path :=
  (b.discovered start n)[n]?

theorem bundledCalls_eq {source : String} {requires : Requires}
    (hread : b.locator.files.read p = .ok source) (hscan : Requires.of source = .ok requires) :
    b.bundledCalls p = requires.calls.filter fun c => !b.options.isExternal c.literal := by
  simp [bundledCalls, hread, hscan]

theorem needed_of_mem_targets (hp : b.Needed start p) (h : q ∈ b.targets p) : b.Needed start q := by
  obtain ⟨call, hcall, hq⟩ := List.mem_filterMap.mp h
  unfold bundledCalls at hcall
  split at hcall
  case h_1 => cases hcall
  case h_2 source hread =>
    split at hcall
    case h_1 => cases hcall
    case h_2 requires hscan =>
      obtain ⟨hmem, hexternal⟩ := List.mem_filter.mp hcall
      cases hlocate : b.locator.locate call.literal p with
      | error e => simp [hlocate, Except.toOption] at hq
      | ok target =>
        obtain rfl : target = q := by simpa [hlocate, Except.toOption] using hq
        exact .call hp hread hscan hmem (by simpa using hexternal) hlocate

theorem mem_targets {source : String} {requires : Requires} {call : StaticCall}
    (hread : b.locator.files.read p = .ok source) (hscan : Requires.of source = .ok requires)
    (hcall : call ∈ requires.calls) (hexternal : b.options.isExternal call.literal = false)
    (hlocate : b.locator.locate call.literal p = .ok q) : q ∈ b.targets p := by
  refine List.mem_filterMap.mpr ⟨call, ?_, by simp [hlocate, Except.toOption]⟩
  rw [bundledCalls_eq hread hscan]
  exact List.mem_filter.mpr ⟨hcall, by simp [hexternal]⟩

theorem prefix_foldl_meet (met ts : List Path) : met <+: ts.foldl meet met := by
  induction ts generalizing met with
  | nil => exact List.prefix_rfl
  | cons t ts ih =>
    have hmeet : met <+: meet met t := by
      unfold meet
      split
      case isTrue => exact List.prefix_rfl
      case isFalse => exact List.prefix_append _ _
    exact hmeet.trans (ih (meet met t))

theorem mem_foldl_meet : q ∈ ts.foldl meet met ↔ q ∈ met ∨ q ∈ ts := by
  induction ts generalizing met with
  | nil => simp
  | cons t ts ih =>
    have hmeet : q ∈ meet met t ↔ q ∈ met ∨ q = t := by
      unfold meet
      split
      case isTrue ht => exact ⟨.inl, fun h => h.elim id (· ▸ ht)⟩
      case isFalse => simp
    rw [List.foldl_cons, ih, hmeet, List.mem_cons, or_assoc]

theorem discovered_prefix (b : Builder) (start : Path) (h : k ≤ n) :
    b.discovered start k <+: b.discovered start n := by
  induction h with
  | refl => exact List.prefix_rfl
  | step _ ih => exact ih.trans (prefix_foldl_meet _ _)

-- Without a next file nothing more is discovered.
theorem discovered_eq (h : b.nth? start k = none) (hn : k ≤ n) :
    b.discovered start n = b.discovered start k := by
  induction hn with
  | refl => rfl
  | @step n hn ih =>
    have hlength := List.getElem?_eq_none_iff.mp h
    have hnone : (b.discovered start n)[n]? = none := by
      rw [ih]
      exact List.getElem?_eq_none (hlength.trans hn)
    rw [discovered, hnone]
    exact ih

theorem getElem?_discovered (h : b.nth? start k = some p) (hn : k ≤ n) :
    (b.discovered start n)[k]? = some p := by
  obtain ⟨more, hmore⟩ := b.discovered_prefix start hn
  have hk : (b.discovered start k)[k]? = some p := h
  rw [← hmore, List.getElem?_append_left (List.getElem?_eq_some_iff.mp hk).1, hk]

-- A file keeps its place.
theorem nth?_of_getElem? (h : (b.discovered start n)[k]? = some p) : b.nth? start k = some p := by
  rcases Nat.le_total n k with hle | hle
  case inl =>
    obtain ⟨more, hmore⟩ := b.discovered_prefix start hle
    rw [nth?, ← hmore, List.getElem?_append_left (List.getElem?_eq_some_iff.mp h).1, h]
  case inr =>
    cases hk : b.nth? start k with
    | none => rw [discovered_eq hk hle] at h; exact hk.symm.trans h
    | some q => exact (getElem?_discovered hk hle).symm.trans h

theorem nodup_foldl_meet (h : met.Nodup) : (ts.foldl meet met).Nodup := by
  induction ts generalizing met with
  | nil => exact h
  | cons t ts ih =>
    refine ih ?_
    unfold meet
    split
    case isTrue => exact h
    case isFalse ht =>
      rw [← List.concat_eq_append]
      exact h.concat ht

theorem nodup_discovered (b : Builder) (start : Path) (n : Nat) : (b.discovered start n).Nodup := by
  induction n with
  | zero => exact List.nodup_singleton start
  | succ n ih => exact nodup_foldl_meet ih

-- No file has two places.
theorem nth?_inj (h : b.nth? start k = some p) (h' : b.nth? start n = some p) : k = n := by
  have hk := getElem?_discovered h (Nat.le_max_left k n)
  have hn := getElem?_discovered h' (Nat.le_max_right k n)
  exact (List.getElem?_inj (List.getElem?_eq_some_iff.mp hk).1
    (b.nodup_discovered start _)).mp (hk.trans hn.symm)

theorem needed_of_mem_discovered (h : p ∈ b.discovered start n) : b.Needed start p := by
  induction n generalizing p with
  | zero => exact List.mem_singleton.mp h ▸ .start
  | succ n ih =>
    rcases mem_foldl_meet.mp h with h | h
    case inl => exact ih h
    case inr =>
      obtain ⟨q, hq, hp⟩ := List.mem_flatMap.mp h
      exact needed_of_mem_targets (ih (List.mem_of_getElem? (Option.mem_toList.mp hq))) hp

-- The files that are discovered are the needed ones.
theorem needed_iff_exists_nth? : b.Needed start p ↔ ∃ n, b.nth? start n = some p := by
  refine ⟨fun h => ?_, fun ⟨n, h⟩ => needed_of_mem_discovered (List.mem_of_getElem? h)⟩
  induction h with
  | start => exact ⟨0, rfl⟩
  | @call p q source requires call _ hread hscan hcall hexternal hlocate ih =>
    obtain ⟨n, hn⟩ := ih
    have hq : q ∈ b.discovered start (n + 1) := by
      refine mem_foldl_meet.mpr (.inr ?_)
      rw [show (b.discovered start n)[n]? = some p from hn]
      simpa using mem_targets hread hscan hcall hexternal hlocate
    obtain ⟨k, hk⟩ := List.mem_iff_getElem?.mp hq
    exact ⟨k, nth?_of_getElem? hk⟩

end Discovered

section Breaks

-- A call that is left to the host, or that means a file.
def Locates (b : Builder) (p : Path) (call : StaticCall) : Prop :=
  b.options.isExternal call.literal ∨ ∃ q, b.locator.locate call.literal p = .ok q

-- A file that can be read and scanned and whose calls all mean files.
def Intact (b : Builder) (p : Path) : Prop :=
  ∃ source requires, b.locator.files.read p = .ok source ∧ Requires.of source = .ok requires ∧
    ∀ call ∈ requires.calls, b.Locates p call

-- What is broken first in a file.
inductive Breaks (b : Builder) (p : Path) : BundleError → Prop
  | read {cause : FileError} (h : b.locator.files.read p = .error cause) :
      Breaks b p (.file p cause)
  | dynamic {source : String} {call : DynamicCall} (hread : b.locator.files.read p = .ok source)
      (h : Requires.of source = .error call) : Breaks b p (.dynamic p call)
  | unresolved {source : String} {requires : Requires} {before after : List StaticCall}
      {call : StaticCall} (hread : b.locator.files.read p = .ok source)
      (hscan : Requires.of source = .ok requires) (hcalls : requires.calls = before ++ call :: after)
      (hbefore : ∀ c ∈ before, b.Locates p c) (h : ¬ b.Locates p call) :
      Breaks b p (.unresolved call.literal p)

theorem Breaks.not_intact (h : b.Breaks p e) : ¬ b.Intact p := by
  rintro ⟨source, requires, hread, hscan, hcalls⟩
  cases h with
  | read h => cases h.symm.trans hread
  | dynamic hread' h =>
    obtain rfl := Except.ok.inj (hread'.symm.trans hread)
    cases h.symm.trans hscan
  | @unresolved _ _ _ _ call hread' hscan' hsplit _ h =>
    obtain rfl := Except.ok.inj (hread'.symm.trans hread)
    obtain rfl := Except.ok.inj (hscan'.symm.trans hscan)
    exact h (hcalls call (by simp [hsplit]))

theorem Breaks.place_eq (h : b.Breaks p e) : e.place = p := by
  cases h <;> rfl

end Breaks

end Builder
end LuaBundle

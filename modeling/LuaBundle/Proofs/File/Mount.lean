import Mathlib.Data.List.Induction
import LuaBundle.Proofs.File.Memory
import LuaBundle.Proofs.Path.Join

namespace LuaBundle

-- Files by the names that lead to them from a directory, with their texts. Of two files with one
-- way the later counts.
structure Listing where
  files : List (List OsString × String)
  isWay : ∀ f ∈ files, f.1 ≠ [] ∧ ∀ n ∈ f.1, Path.IsName n

namespace Listing

-- The relative path that leads through names.
def path (way : List OsString) : Path :=
  ⟨⟨[Path.slash].intercalate (way.map OsString.bytes)⟩⟩

-- The files in memory under a directory.
def mount (l : Listing) (dir : Path) : Memory :=
  l.files.foldl (fun m f => m.addFile (dir.join (path f.1)) f.2) .empty

def text? (l : Listing) (way : List OsString) : Option String :=
  l.files.reverse.lookup way

section Path

variable {dir way : List OsString}

theorem bytes_path (way : List OsString) :
    (path way).bytes = [Path.slash].intercalate (way.map OsString.bytes) :=
  rfl

theorem descends_path (h : ∀ n ∈ way, Path.IsName n) : (path way).Descends where
  relative := by
    have hhead : (path way).bytes.head? ≠ some Path.slash := by
      rw [bytes_path]
      refine Path.head?_intercalate fun t ht => ?_
      obtain ⟨n, hn, rfl⟩ := List.mem_map.mp ht
      exact ⟨(h n hn).1, (h n hn).2.1⟩
    simpa [Path.isAbsolute] using hhead
  noUp hup := by
    rw [bytes_path, Path.pieces_intercalate h] at hup
    obtain ⟨n, hn, he⟩ := List.mem_map.mp hup
    exact (h n hn).2.2.2 he

theorem names_path (h : ∀ n ∈ way, Path.IsName n) : (path way).names = way := by
  rw [Path.names, bytes_path, Path.pieces_intercalate h, OsString.map_mk_map_bytes]

theorem clean_join_path (hd : ∀ n ∈ dir, Path.IsName n) (h : ∀ n ∈ way, Path.IsName n) :
    ((Path.ofNames dir).join (path way)).clean = Path.ofNames (dir ++ way) := by
  rw [(descends_path h).clean_join hd, names_path h]

end Path

variable {l : Listing} {dir way : List OsString} {p : Path} {text : String}

-- A file lies where its way leads to from the directory, and nowhere else.
theorem files_mount (l : Listing) (hd : ∀ n ∈ dir, Path.IsName n) :
    (l.mount (Path.ofNames dir)).links = [] ∧
      (∀ p ∈ (l.mount (Path.ofNames dir)).files.map Prod.fst,
        ∃ f ∈ l.files, p = Path.ofNames (dir ++ f.1)) ∧
      ∀ way, (∀ n ∈ way, Path.IsName n) →
        (l.mount (Path.ofNames dir)).files.lookup (Path.ofNames (dir ++ way)) = l.text? way := by
  have hl := l.isWay
  unfold mount text?
  generalize l.files = files at hl ⊢
  induction files using List.reverseRecOn with
  | nil => exact ⟨rfl, by simp [Memory.empty], fun _ _ => rfl⟩
  | append_singleton files f ih =>
    obtain ⟨hlinks, hkeys, hlookup⟩ := ih fun f hf => hl f (List.mem_append_left _ hf)
    have hf := (hl f (by simp)).2
    have hclean := clean_join_path hd hf
    rw [List.foldl_append]
    refine ⟨hlinks, fun p hp => ?_, fun way hw => ?_⟩
    · obtain ⟨entry, he, rfl⟩ := List.mem_map.mp hp
      rcases Memory.mem_of_mem_put he with rfl | he
      case inl => exact ⟨f, by simp, hclean⟩
      case inr =>
        obtain ⟨g, hg, hp⟩ := hkeys entry.1 (List.mem_map_of_mem he)
        exact ⟨g, List.mem_append_left _ hg, hp⟩
    · have isName {way : List OsString} (hw : ∀ n ∈ way, Path.IsName n) :
          ∀ n ∈ dir ++ way, Path.IsName n := fun n hn =>
        (List.mem_append.mp hn).elim (hd n) (hw n)
      rw [List.foldl_cons, List.foldl_nil, Memory.lookup_addFile, hclean, hlookup way hw,
        List.reverse_concat, List.lookup_cons]
      by_cases he : way = f.1
      case pos => simp [he]
      case neg =>
        have hne : (way == f.1) = false := by simpa using he
        have hpath : Path.ofNames (dir ++ way) ≠ Path.ofNames (dir ++ f.1) := fun h =>
          he (List.append_cancel_left ((Path.ofNames_inj (isName hw) (isName hf)).mp h))
        rw [if_neg hpath, hne]

theorem resolve_mount (l : Listing) (hd : ∀ n ∈ dir, Path.IsName n) (p : Path) :
    (l.mount (Path.ofNames dir)).resolve p = p.clean := by
  rw [Memory.resolve, Memory.maxHops, Memory.follow, (l.files_mount hd).1]
  rfl

theorem content?_mount (hd : ∀ n ∈ dir, Path.IsName n) (hw : ∀ n ∈ way, Path.IsName n)
    (hp : p.clean = Path.ofNames (dir ++ way)) :
    (l.mount (Path.ofNames dir)).content? p = l.text? way := by
  rw [Memory.content?, resolve_mount l hd, hp, (l.files_mount hd).2.2 way hw]

theorem isSome_text? (h : way ∈ l.files.map Prod.fst) : (l.text? way).isSome := by
  rw [Option.isSome_iff_ne_none, text?, Ne, List.lookup_eq_none_iff]
  obtain ⟨f, hf, rfl⟩ := List.mem_map.mp h
  exact fun hn => by simpa using hn f (List.mem_reverse.mpr hf)

theorem mem_files_of_text? (h : l.text? way = some text) : (way, text) ∈ l.files := by
  obtain ⟨before, after, hsplit, -⟩ := List.lookup_eq_some_iff.mp h
  exact List.mem_reverse.mp (hsplit ▸ List.mem_append_cons_self)

end Listing
end LuaBundle

import LuaBundle.Proofs.Bundle.Copied
import LuaBundle.Proofs.Module.Locate
import LuaBundle.Proofs.Module.Needed
import LuaBundle.Proofs.Source.Exchange

namespace LuaBundle

namespace StaticCall.Exchanged

variable {call call' : StaticCall} {calls calls' : List StaticCall}

theorem forall₂ {R : StaticCall → StaticCall → Prop} (h : call.Exchanged call' calls calls')
    (hcall : R call call') (hsame : ∀ c ∈ calls, ∀ c', c'.literal = c.literal → R c c') :
    List.Forall₂ R calls calls' := by
  induction h with
  | here hs hmoved =>
    refine .cons hcall ((forall₂_and_mem hmoved).imp fun c c' ⟨hc, _, hm⟩ => ?_)
    exact hsame c (.tail _ hc) c' hm.literal
  | @earlier c c' calls calls' hm more ih =>
    exact .cons (hsame c List.mem_cons_self c' hm.literal) (ih fun c hc => hsame c (.tail _ hc))

-- What is kept of calls by their literals.
theorem filter (h : call.Exchanged call' calls calls') (keep : String → Bool)
    (hcall : keep call.literal) (hcall' : keep call'.literal) :
    call.Exchanged call' (calls.filter (keep ·.literal)) (calls'.filter (keep ·.literal)) := by
  induction h with
  | here hs hmoved =>
    rw [List.filter_cons, List.filter_cons, if_pos hcall, if_pos hcall']
    exact .here hs (List.rel_filter (fun c c' hm => by simp [hm.literal]) hmoved)
  | @earlier c c' calls calls' hm more ih =>
    rw [List.filter_cons, List.filter_cons, hm.literal]
    split
    case isTrue => exact .earlier hm ih
    case isFalse => exact ih

end StaticCall.Exchanged

namespace Memory

variable {m : Memory} {options : Options} {entry start p : Path} {g g' : Graph} {x : Module}
  {r : Reference} {literal source : String} {text : List Char}

-- The memory in which a reference of a module is written in another way, in the file that the
-- module was read from.
def rephrase (m : Memory) (x : Module) (r : Reference) (text : List Char) : Memory :=
  m.overwrite x.path (r.span.exchange x.source text)

-- What it takes to write a reference in another way: the text is a static call of a name that is
-- not of the host, and it means the file that was meant. Should the text of the module be that of
-- another needed file too, then it means there what was meant there.
structure Rephrases (m : Memory) (options : Options) (start : Path) (x : Module) (r : Reference)
    (literal : String) (text : List Char) : Prop where
  written : CallText literal text
  bundled : options.isExternal literal = false
  located : (Builder.of m.fileSystem options start).locator.locate literal x.path = .ok r.path
  shared : ∀ p q, (Builder.of m.fileSystem options start).Needed start p → p ≠ x.path →
    m.resolve p = m.resolve x.path →
    (Builder.of m.fileSystem options start).locator.locate r.literal p = .ok q →
    (Builder.of m.fileSystem options start).locator.locate literal p = .ok q

-- A path stands for itself where it is needed.
def SameNeeded (b : Builder) (start p p' : Path) : Prop :=
  p' = p ∧ b.Needed start p

-- Where no file is a link, no two needed files have one text.
theorem Rephrases.of_no_link (hb : m.Built) (hl : ∀ p, m.Holds p → p ∉ m.links.map Prod.fst)
    (hs : m.canonicalize entry = .ok start)
    (h : (buildGraph m.fileSystem options entry).result = .ok g) (hx : x ∈ g.modules)
    (hw : CallText literal text) (he : options.isExternal literal = false)
    (ht : (Builder.of m.fileSystem options start).locator.locate literal x.path = .ok r.path) :
    m.Rephrases options start x r literal text where
  written := hw
  bundled := he
  located := ht
  shared := by
    intro p q hp hne hsame
    have own {p : Path} (hp : (Builder.of m.fileSystem options start).Needed start p) :
        m.resolve p = p :=
      have ⟨_, hc⟩ := hp.located ⟨entry, hs⟩
      hb.resolve_eq hl (mem_files_of_canonicalize hc)
    obtain ⟨start', hs', found, -, hneeded, hfound⟩ := Builder.allotted_of_buildGraph h
    obtain rfl : start' = start := Except.ok.inj (hs'.symm.trans hs)
    have hown : m.resolve x.path = x.path := own (hneeded _ (hfound x hx))
    exact absurd (by rw [← own hp, hsame, hown]) hne

-- The reference is a call of the module's text.
theorem exists_call_of_mem (h : (buildGraph m.fileSystem options entry).result = .ok g)
    (hx : x ∈ g.modules) (hr : r ∈ x.references) :
    ∃ requires, Requires.of x.source = .ok requires ∧ r.call ∈ requires.calls ∧
      options.isExternal r.literal = false := by
  obtain ⟨requires, hscan, hcalls⟩ := Builder.scanned_of_buildGraph h x hx
  have hmem := hcalls ▸ List.mem_map_of_mem (f := Reference.call) hr
  obtain ⟨hmem, hexternal⟩ := List.mem_filter.mp hmem
  exact ⟨requires, hscan, hmem, Bool.not_eq_true' _ ▸ hexternal⟩

theorem isFile_of_mem (h : (buildGraph m.fileSystem options entry).result = .ok g)
    (hx : x ∈ g.modules) : m.isFile x.path :=
  isFile_of_read (Builder.read_of_buildGraph h x hx)

-- Where another path is read from the file of a module, it has the text of the module.
theorem source_eq_of_resolve_eq (h : (buildGraph m.fileSystem options entry).result = .ok g)
    (hx : x ∈ g.modules) (hp : m.resolve p = m.resolve x.path) (hread : m.read p = .ok source) :
    source = x.source := by
  rw [read_eq_of_resolve_eq hp (isFile_of_mem h hx)] at hread
  exact Except.ok.inj (hread.symm.trans (Builder.read_of_buildGraph h x hx))

-- Names lead from a module where they led before.
theorem locate_rephrase (hb : m.Built) (hfile : m.isFile x.path) :
    (Builder.of (m.rephrase x r text).fileSystem options start).locator.locate =
      (Builder.of m.fileSystem options start).locator.locate :=
  Locator.locate_congr rfl rfl (hb.isFile_overwrite hfile) (hb.canonicalize_overwrite hfile)

section Answers

variable {requires : Requires}

theorem answers_rephrase (hb : m.Built) (hfile : m.isFile x.path)
    (hp : (Builder.of m.fileSystem options start).Needed start p) (hread : m.read p = .ok source)
    (hscan : Requires.of source = .ok requires) {c c' : StaticCall} (hc : c ∈ requires.calls)
    (hl : c'.literal = c.literal) :
    (Builder.of m.fileSystem options start).Answers
      (.of (m.rephrase x r text).fileSystem options start)
      (SameNeeded (.of m.fileSystem options start) start) p p c c' where
  external := by rw [hl]; rfl
  locate := by
    intro hexternal q hq
    refine ⟨q, ?_, rfl, .call hp hread hscan hc hexternal hq⟩
    rw [locate_rephrase hb hfile, hl, hq]

-- The call that is exchanged is answered because its new literal means what the old one meant.
theorem Rephrases.answers (ht : m.Rephrases options start x r literal text) (hb : m.Built)
    (hs : m.canonicalize entry = .ok start)
    (h : (buildGraph m.fileSystem options entry).result = .ok g) (hx : x ∈ g.modules)
    (hr : r ∈ x.references) (hp : (Builder.of m.fileSystem options start).Needed start p)
    (hsame : m.resolve p = m.resolve x.path) (hread : m.read p = .ok source)
    (hscan : Requires.of source = .ok requires) (hc : r.call ∈ requires.calls)
    (hexternal : options.isExternal r.literal = false) {call' : StaticCall}
    (hl : call'.literal = literal) :
    (Builder.of m.fileSystem options start).Answers
      (.of (m.rephrase x r text).fileSystem options start)
      (SameNeeded (.of m.fileSystem options start) start) p p r.call call' where
  external := by
    rw [hl]
    exact ht.bundled.trans hexternal.symm
  locate := by
    intro _ q hq
    refine ⟨q, ?_, rfl, .call hp hread hscan hc hexternal hq⟩
    rw [locate_rephrase hb (isFile_of_mem h hx), hl]
    by_cases hpx : p = x.path
    case pos =>
      subst hpx
      rw [ht.located, ← hq]
      exact (Builder.located_of_buildGraph hs h x hx r hr).symm
    case neg => exact ht.shared p q hp hpx hsame hq

end Answers

-- Either build stands for the other file by file.
theorem Rephrases.mirrors (ht : m.Rephrases options start x r literal text) (hb : m.Built)
    (hs : m.canonicalize entry = .ok start)
    (h : (buildGraph m.fileSystem options entry).result = .ok g) (hx : x ∈ g.modules)
    (hr : r ∈ x.references) :
    (Builder.of m.fileSystem options start).Mirrors
      (.of (m.rephrase x r text).fileSystem options start)
      (SameNeeded (.of m.fileSystem options start) start) Eq where
  paths := by
    rintro p _ q _ ⟨rfl, -⟩ ⟨rfl, -⟩
    rfl
  ids := by
    rintro _ _ _ _ rfl rfl
    rfl
  wishes := by
    rintro p _ ⟨rfl, -⟩
    rfl
  wish _ _ := rfl
  whole := by
    rintro p _ ⟨rfl, -⟩
    rfl
  calls := by
    rintro _ p source requires ⟨rfl, hp⟩ hread hscan
    have hfile := isFile_of_mem h hx
    have hread' : (m.rephrase x r text).read p = _ := hb.read_overwrite hfile p
    by_cases hsame : m.resolve p = m.resolve x.path
    case neg =>
      rw [if_neg hsame] at hread'
      refine ⟨source, requires, hread'.trans hread, hscan, List.forall₂_same.mpr fun c hc => ?_⟩
      exact answers_rephrase hb hfile hp hread hscan hc rfl
    case pos =>
      rw [if_pos hsame] at hread'
      obtain rfl := source_eq_of_resolve_eq h hx hsame hread
      obtain ⟨requires₀, hscan₀, hc, hexternal⟩ := exists_call_of_mem h hx hr
      obtain rfl : requires₀ = requires := Except.ok.inj (hscan₀.symm.trans hscan)
      obtain ⟨requires', call', hscan', hl, hexchanged, -⟩ :=
        Requires.exists_exchange hscan hc ht.written
      refine ⟨_, requires', hread', hscan', hexchanged.forall₂ ?_ fun c hc c' => ?_⟩
      · exact ht.answers hb hs h hx hr hp hsame hread hscan hc hexternal hl
      · exact answers_rephrase hb hfile hp hread hscan hc

-- The body is the same: what is exchanged is replaced.
theorem Rephrases.body_eq (ht : m.Rephrases options start x r literal text) (hb : m.Built)
    (h : (buildGraph m.fileSystem options entry).result = .ok g)
    (h' : (buildGraph (m.rephrase x r text).fileSystem options entry).result = .ok g')
    (hx : x ∈ g.modules) (hr : r ∈ x.references) {n n' : Module} (hn : n ∈ g.modules)
    (hn' : n' ∈ g'.modules)
    (hc : Builder.Copies (SameNeeded (.of m.fileSystem options start) start) Eq n n') :
    n.body = n'.body := by
  have htargets := Bundle.map_target_eq hc
  have hpath : n'.path = n.path := hc.path.1
  have hread : m.read n.path = .ok n.source := Builder.read_of_buildGraph h n hn
  have hread' : (m.rephrase x r text).read n.path = .ok n'.source :=
    hpath ▸ Builder.read_of_buildGraph h' n' hn'
  have hfile := isFile_of_mem h hx
  rw [rephrase, hb.read_overwrite hfile] at hread'
  by_cases hsame : m.resolve n.path = m.resolve x.path
  case neg =>
    rw [if_neg hsame, hread] at hread'
    exact Bundle.body_eq_of_source_eq h h' hn hn' (Except.ok.inj hread') htargets
  case pos =>
    rw [if_pos hsame] at hread'
    have hsource : r.span.exchange x.source text = n'.source := Except.ok.inj hread'
    have hown := source_eq_of_resolve_eq h hx hsame hread
    obtain ⟨requires, hscan, hmem, hexternal⟩ := exists_call_of_mem h hx hr
    obtain ⟨requires', call', hscan', rfl, hexchanged, before, old, rest, hswapped⟩ :=
      Requires.exists_exchange hscan hmem ht.written
    obtain ⟨requires₁, hscan₁, hcalls⟩ := Builder.scanned_of_buildGraph h n hn
    obtain ⟨requires₁', hscan₁', hcalls'⟩ := Builder.scanned_of_buildGraph h' n' hn'
    obtain rfl : requires₁ = requires := Except.ok.inj (hscan₁.symm.trans (hown ▸ hscan))
    obtain rfl : requires₁' = requires' := Except.ok.inj (hscan₁'.symm.trans (hsource ▸ hscan'))
    have hkept := hexchanged.filter (fun literal => !options.isExternal literal)
      (Bool.not_eq_true' _ ▸ hexternal) (Bool.not_eq_true' _ ▸ ht.bundled)
    rw [← hcalls, ← hcalls'] at hkept
    rw [Bundle.body_eq, Bundle.body_eq, Module.calls_eq_zip, Module.calls_eq_zip, ← htargets, hown,
      ← hsource]
    refine hswapped.embed_eq hscan ?_ hkept (by simp)
    rw [hcalls]
    exact List.filter_sublist

-- A bundle is the same however a reference of one of its modules is written, as long as it means
-- the same file.
theorem bundle_rephrase (hb : m.Built) (hs : m.canonicalize entry = .ok start)
    (h : (buildGraph m.fileSystem options entry).result = .ok g) (hx : x ∈ g.modules)
    (hr : r ∈ x.references) (ht : m.Rephrases options start x r literal text) :
    ∃ out, (bundle m.fileSystem options entry).result = .ok out ∧
      (bundle (m.rephrase x r text).fileSystem options entry).result = .ok out := by
  have hfile := isFile_of_mem h hx
  have hs' : (m.rephrase x r text).canonicalize entry = .ok start := by
    rw [rephrase, hb.canonicalize_overwrite hfile, hs]
  obtain ⟨g', h', hcopied⟩ := buildGraph_copied hs hs' ⟨rfl, .start⟩ (ht.mirrors hb hs h hx hr) h
  have hemit : Bundle.emit g = Bundle.emit g' := by
    refine Bundle.emit_eq_of_copied hcopied (Builder.closed_of_buildGraph h).1 ?_ ?_
    · exact fun n hn n' hn' hc => ht.body_eq hb h h' hx hr hn hn' hc
    · rintro p _ q _ ⟨rfl, -⟩ ⟨rfl, -⟩
      rfl
  refine ⟨Bundle.emit g, congrArg (·.map Bundle.emit) h, ?_⟩
  rw [hemit]
  exact congrArg (·.map Bundle.emit) h'

-- A name that `alias` is a link to, with a comment in front of its two parts.
def byName : List Char :=
  "require--[[]]( './' ..\n[=[a.lua]=])".toList

theorem callText_byName : CallText "./a.lua" byName := by
  have hcomment : Lua.IsTrivia ('-' :: '-' :: ('[' :: (Lua.longOpener 0 ++ [']', ']']) ++ [])) :=
    .comment (.long (by decide +kernel) (by decide +kernel)) .nil
  have hspace : Lua.IsTrivia [' '] := .space (by decide) .nil
  have hfeed : Lua.IsTrivia ['\n'] := .space (by decide) .nil
  have hdir : Lua.IsLiteral "./" "'./'".toList :=
    ⟨'\'', "./'".toList, by decide +kernel, by decide +kernel, by decide +kernel, by decide +kernel⟩
  have hfile : Lua.IsLiteral "a.lua" "[=[a.lua]=]".toList :=
    ⟨'[', "=[a.lua]=]".toList, by decide +kernel, by decide +kernel, by decide +kernel,
      by decide +kernel⟩
  have h := CallText.parenthesized hcomment hspace (.joined hdir hspace hfeed (.last hfile .nil))
  exact cast (congrArg₂ CallText (by decide +kernel) (by decide +kernel)) h

-- The reference of `crossed` to its link, and the module with it.
def aliased : Reference :=
  ⟨"alias", ⟨14, 29, 1, 15⟩, ⟨"/p/a.lua"⟩, ⟨"a.lua"⟩⟩

def crossing : Module :=
  ⟨⟨"main"⟩, ⟨"/p/main.lua"⟩, "require './a' require 'alias'",
    [⟨"./a", ⟨0, 13, 1, 1⟩, ⟨"/p/a"⟩, ⟨"a"⟩⟩, aliased]⟩

theorem bundle_rephrase_crossed :
    crossed.Built ∧ crossed.canonicalize ⟨"/p/main.lua"⟩ = .ok ⟨"/p/main.lua"⟩ ∧
      crossed.Rephrases .default ⟨"/p/main.lua"⟩ crossing aliased "./a.lua" byName ∧
      ∃ g out, (buildGraph crossed.fileSystem .default ⟨"/p/main.lua"⟩).result = .ok g ∧
      crossing ∈ g.modules ∧ aliased ∈ crossing.references ∧
      (bundle crossed.fileSystem .default ⟨"/p/main.lua"⟩).result = .ok out ∧
      (bundle (crossed.rephrase crossing aliased byName).fileSystem .default
        ⟨"/p/main.lua"⟩).result = .ok out := by
  have hs : crossed.canonicalize ⟨"/p/main.lua"⟩ = .ok ⟨"/p/main.lua"⟩ := by decide +kernel
  have hok : (buildGraph crossed.fileSystem .default ⟨"/p/main.lua"⟩).result.map
      (fun g => g.module? ⟨"main"⟩) = .ok (some crossing) := by decide +kernel
  obtain ⟨g, hg, hmain⟩ := exists_of_map_eq_ok hok
  have hx : crossing ∈ g.modules := List.mem_of_find?_eq_some hmain
  have hr : aliased ∈ crossing.references := by decide
  have ht := Rephrases.of_no_link (r := aliased) regular_crossed.built regular_crossed.no_link hs hg
    hx callText_byName (by decide +kernel) (by decide +kernel)
  obtain ⟨out, hout, hout'⟩ := bundle_rephrase regular_crossed.built hs hg hx hr ht
  exact ⟨regular_crossed.built, hs, ht, g, out, hg, hx, hr, hout, hout'⟩

section Chained

-- The links of a chain, each of which leads to the next.
def link (n : Nat) : Path :=
  ⟨String.ofList ['/', 'p', '/', Char.ofNat ('0'.toNat + n)]⟩

def chain (m : Memory) : Nat → Memory
  | 0 => m
  | n + 1 => (m.chain n).addLink (link n) (link (n + 1))

theorem Built.chain (h : Built m) (n : Nat) : Built (m.chain n) := by
  induction n with
  | zero => exact h
  | succ n ih => exact .addLink ih _ _

-- A chain of links that is followed to a file which is a link itself. That file is read from the
-- entry, and names mean something else in its directory.
def chained : Memory :=
  Memory.empty
    |>.addFile ⟨"/p/main.lua"⟩ "require './0'\n"
    |>.addFile ⟨"/p/d/main.lua"⟩ ""
    |>.addFile ⟨"/p/d/0"⟩ "return 0\n"
    |>.chain (maxHops - 1)
    |>.addLink (link (maxHops - 1)) ⟨"/p/d/main.lua"⟩
    |>.addLink ⟨"/p/d/main.lua"⟩ ⟨"/p/main.lua"⟩

theorem built_chained : chained.Built :=
  .addLink (.addLink (.chain (.addFile (.addFile (.addFile .empty _ _) _ _) _ _) _) _ _) _ _

theorem callText_upward : CallText "../p/0" "require '../p/0'".toList := by
  have hspace : Lua.IsTrivia [' '] := .space (by decide) .nil
  have hname : Lua.IsLiteral "../p/0" "'../p/0'".toList :=
    ⟨'\'', "../p/0'".toList, by decide +kernel, by decide +kernel, by decide +kernel,
      by decide +kernel⟩
  exact cast (congrArg (CallText _) (by decide +kernel)) (CallText.string hspace hname)

-- The one reference of the entry of `chained`, and its module.
def upper : Reference :=
  ⟨"./0", ⟨0, 13, 1, 1⟩, ⟨"/p/d/main.lua"⟩, ⟨"d/main"⟩⟩

def uppermost : Module :=
  ⟨⟨"main"⟩, ⟨"/p/main.lua"⟩, "require './0'\n", [upper]⟩

theorem bundle_rephrase_chained :
    chained.Built ∧ ∃ g out,
      (buildGraph chained.fileSystem .default ⟨"/p/main.lua"⟩).result = .ok g ∧
      uppermost ∈ g.modules ∧ upper ∈ uppermost.references ∧
      (bundle chained.fileSystem .default ⟨"/p/main.lua"⟩).result = .ok out ∧
      CallText "../p/0" "require '../p/0'".toList ∧ Options.default.isExternal "../p/0" = false ∧
      (Builder.of chained.fileSystem .default ⟨"/p/main.lua"⟩).locator.locate "../p/0"
        uppermost.path = .ok upper.path ∧
      (bundle (chained.rephrase uppermost upper "require '../p/0'".toList).fileSystem .default
        ⟨"/p/main.lua"⟩).result = .error (.unresolved "../p/0" ⟨"/p/d/main.lua"⟩) := by
  have hok : (buildGraph chained.fileSystem .default ⟨"/p/main.lua"⟩).result.map
      (fun g => g.module? ⟨"main"⟩) = .ok (some uppermost) := by decide +kernel
  obtain ⟨g, hg, hmain⟩ := exists_of_map_eq_ok hok
  refine ⟨built_chained, g, Bundle.emit g, hg, List.mem_of_find?_eq_some hmain, by decide,
    congrArg (·.map Bundle.emit) hg, callText_upward, by decide +kernel, by decide +kernel, ?_⟩
  decide +kernel

end Chained

end Memory

end LuaBundle

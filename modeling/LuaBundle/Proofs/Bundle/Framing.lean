import LuaBundle.Bundle.Emit
import LuaBundle.File.Memory
import LuaBundle.Proofs.Module.Body

namespace LuaBundle

open Lua

namespace Bundle

-- The line that names a module for the reader.
def remark (m : Module) : String :=
  "-- Module: " ++ m.id.text ++ "\n"

-- The code that puts a module in.
def definition (root : Path) (m : Module) : String :=
  "__define(" ++ quote m.id.text ++ ", " ++ quote (m.path.relativeTo root) ++ ", function(...)\n" ++
    lineEnded m.body ++ "end)\n\n"

-- A bundle with a text of one's choice in front of each module's code.
def layout (front : Module → String) (g : Graph) : String :=
  header ++ "\n" ++ prelude ++ "\n" ++
    String.join (g.modules.map fun m => front m ++ definition (root g) m) ++ footer g.entry

theorem emit_eq_layout (g : Graph) : emit g = layout remark g := by
  have hunit : unit (root g) = fun m => remark m ++ definition (root g) m := by
    funext m
    unfold unit remark definition
    simp only [← String.append_assoc]
  rw [emit, layout, hunit]

-- The tokens that a module is put in by.
def definitionKinds (root : Path) (m : Module) : List Kind :=
  [.name "__define", .symbol "(", .str m.id.text, .symbol ",", .str (m.path.relativeTo root),
      .symbol ",", .name "function", .symbol "(", .symbol "...", .symbol ")"] ++
    (lex ("\n" ++ m.body)).map Token.kind ++ [.name "end", .symbol ")"]

def footerKinds (entry : ModuleId) : List Kind :=
  .name "return" :: callKinds entry.text

-- The tokens of the prelude, of each module in its frame and of the call that runs the entry.
def frame (g : Graph) : List Kind :=
  (lex prelude).map Token.kind ++ g.modules.flatMap (definitionKinds (root g)) ++
    footerKinds g.entry

section Definition

variable {m : Module} {body : String}

theorem kinds_lineEnded (h : runsOut body.toList = false) (y : List Char) :
    kinds ((lineEnded body).toList ++ y) = kinds body.toList ++ kinds y := by
  rw [lineEnded]
  split
  case isTrue hb =>
    have hline : EndsLine body.toList := by
      intro c hc
      have hb : body.toList = [] ∨ body.toList.getLast? = some '\n' := by simpa using hb
      rcases hb with hb | hb
      case inl => simp [hb] at hc
      case inr => exact Option.some.inj (hc.symm.trans hb)
    exact kinds_append h (.inl hline)
  case isFalse =>
    have hbody : (body ++ "\n").toList ++ y = body.toList ++ '\n' :: y := by simp
    rw [hbody, kinds_append h (.inr rfl), kinds_cons_space (by decide)]

theorem toList_definition (root : Path) (m : Module) (y : List Char) :
    (definition root m).toList ++ y =
      "__define".toList ++ '(' :: ((quote m.id.text).toList ++ ',' :: ' ' ::
        ((quote (m.path.relativeTo root)).toList ++ ',' :: ' ' ::
          ("function".toList ++ '(' :: '.' :: '.' :: '.' :: ')' :: '\n' ::
            ((lineEnded m.body).toList ++ ("end".toList ++ ')' :: '\n' :: '\n' :: y))))) := by
  simp [definition]

theorem kinds_definition (root : Path) (h : runsOut m.body.toList = false) (y : List Char) :
    kinds ((definition root m).toList ++ y) = definitionKinds root m ++ kinds y := by
  have hname (x : List Char) : ('(' :: x).head?.all fun d => !isNameCharacter d := by
    simp [isNameCharacter, isNameStart]
  have hend (x : List Char) : (')' :: x).head?.all fun d => !isNameCharacter d := by
    simp [isNameCharacter, isNameStart]
  have hspace : isSpace ' ' := by decide
  have hline : isSpace '\n' := by decide
  have hopen : isLoneSymbol '(' := by decide
  have hclose : isLoneSymbol ')' := by decide
  have hcomma : isLoneSymbol ',' := by decide
  rw [toList_definition, (begins_name (by decide) (hname _)).kinds_eq,
    (begins_loneSymbol hopen).kinds_eq, (begins_quote _ _).kinds_eq,
    (begins_loneSymbol hcomma).kinds_eq, kinds_cons_space hspace, (begins_quote _ _).kinds_eq,
    (begins_loneSymbol hcomma).kinds_eq, kinds_cons_space hspace,
    (begins_name (by decide) (hname _)).kinds_eq, (begins_loneSymbol hopen).kinds_eq,
    begins_ellipsis.kinds_eq, (begins_loneSymbol hclose).kinds_eq, kinds_cons_space hline,
    kinds_lineEnded h, (begins_name (by decide) (hend _)).kinds_eq,
    (begins_loneSymbol hclose).kinds_eq, kinds_cons_space hline, kinds_cons_space hline,
    definitionKinds, lex_line_feed]
  simp only [List.append_assoc, List.cons_append, List.nil_append]
  rfl

end Definition

section Layout

variable {front : Module → String} {g : Graph}

theorem runsOut_of_mem_preludeLines : ∀ line ∈ preludeLines, runsOut line.toList = false := by
  -- A literal is taken as the list of its characters, which is faster than to decode it.
  have of_chars {s : List Char} (h : runsOut s = false) :
      runsOut (String.ofList s).toList = false := by
    rwa [String.toList_ofList]
  have nil : ∀ line ∈ ([] : List String), runsOut line.toList = false := by simp
  rw [preludeLines]
  repeat' refine List.forall_mem_cons.mpr ⟨of_chars (by decide +kernel), ?_⟩
  exact nil

theorem toList_prelude :
    prelude.toList = preludeLines.flatMap fun line => line.toList ++ ['\n'] := by
  unfold prelude
  rw [String.toList_join, List.flatMap_map]
  simp only [String.toList_append]
  rfl

theorem runsOut_prelude : runsOut prelude.toList = false := by
  have hlines {lines : List String} (h : ∀ line ∈ lines, runsOut line.toList = false) :
      runsOut (lines.flatMap fun line => line.toList ++ ['\n']) = false := by
    induction lines with
    | nil => exact runsOut_nil
    | cons line lines ih =>
      rw [List.flatMap_cons, List.append_assoc, List.singleton_append,
        runsOut_append (h line List.mem_cons_self) (.inr rfl)]
      exact (IsTrivia.runsOut_append (.space (by decide) .nil) _).trans
        (ih fun line hl => h line (.tail _ hl))
  rw [toList_prelude]
  exact hlines runsOut_of_mem_preludeLines

theorem preamble_of_dash {s : List Char} (h : s.head? = some '-') : preamble s = ([], s) := by
  cases s with
  | nil => cases h
  | cons c s =>
    obtain rfl : c = '-' := Option.some.inj h
    rfl

theorem lex_prelude : (lex prelude).map Token.kind = kinds prelude.toList := by
  have hdash : prelude.toList.head? = some '-' := by
    rw [toList_prelude]
    decide +kernel
  exact lex_map_kind (preamble_of_dash hdash)

theorem toList_header : header.toList = '-' :: '-' :: (" Bundled by luapack".toList ++ ['\n']) := by
  unfold header
  simp

theorem kinds_header (y : List Char) :
    kinds (header.toList ++ '\n' :: (prelude.toList ++ '\n' :: y)) =
      (lex prelude).map Token.kind ++ kinds y := by
  have hline := @isTrivia_line " Bundled by luapack".toList (by simp) (by simp)
  rw [toList_header, hline.kinds_append, kinds_cons_space (by decide),
    kinds_append runsOut_prelude (.inr rfl), kinds_cons_space (by decide), lex_prelude]

theorem toList_footer (entry : ModuleId) :
    (footer entry).toList = '-' :: '-' :: (" Execute entry point".toList ++ ['\n']) ++
      ("return".toList ++ ' ' :: ((requireCall entry.text).toList ++ ['\n'])) := by
  unfold footer
  simp

theorem kinds_footer (entry : ModuleId) : kinds (footer entry).toList = footerKinds entry := by
  have hline := @isTrivia_line " Execute entry point".toList (by simp) (by simp)
  rw [toList_footer, hline.kinds_append,
    (begins_name (by decide) (by simp [isNameCharacter, isNameStart])).kinds_eq,
    kinds_cons_space (by decide), kinds_requireCall, kinds_cons_space (by decide), kinds_nil,
    List.append_nil]
  rfl

theorem kinds_definitions (root : Path) {modules : List Module}
    (hb : ∀ m ∈ modules, runsOut m.body.toList = false)
    (hf : ∀ m ∈ modules, EndsLine (front m).toList ∧ runsOut (front m).toList = false)
    (y : List Char) :
    kinds ((modules.map fun m => front m ++ definition root m).flatMap String.toList ++ y) =
      modules.flatMap (fun m => kinds (front m).toList ++ definitionKinds root m) ++ kinds y := by
  induction modules with
  | nil => rfl
  | cons m modules ih =>
    have ih := ih (fun m hm => hb m (.tail _ hm)) (fun m hm => hf m (.tail _ hm))
    obtain ⟨hline, hruns⟩ := hf m List.mem_cons_self
    rw [List.map_cons, List.flatMap_cons, List.flatMap_cons, String.toList_append,
      List.append_assoc, List.append_assoc, kinds_append hruns (.inl hline),
      kinds_definition root (hb m List.mem_cons_self), ih]
    simp only [List.append_assoc]

theorem toList_lines (a b c d : String) :
    (a ++ "\n" ++ b ++ "\n" ++ c ++ d).toList =
      a.toList ++ '\n' :: (b.toList ++ '\n' :: (c.toList ++ d.toList)) := by
  simp

theorem lex_layout (hb : ∀ m ∈ g.modules, runsOut m.body.toList = false)
    (hf : ∀ m ∈ g.modules, EndsLine (front m).toList ∧ runsOut (front m).toList = false) :
    (lex (layout front g)).map Token.kind =
      (lex prelude).map Token.kind ++
        g.modules.flatMap (fun m => kinds (front m).toList ++ definitionKinds (root g) m) ++
          footerKinds g.entry := by
  have hlayout : (layout front g).toList = _ := toList_lines header prelude _ _
  have hdash : (layout front g).toList.head? = some '-' := by
    rw [hlayout, toList_header, List.cons_append, List.head?_cons]
  rw [lex_map_kind (preamble_of_dash hdash), hlayout, kinds_header, String.toList_join,
    kinds_definitions _ hb hf, kinds_footer, List.append_assoc]

theorem flatMap_append_eq_iff {α β : Type} {l : List α} {f h : α → List β} :
    (l.flatMap fun a => f a ++ h a) = l.flatMap h ↔ ∀ a ∈ l, f a = [] := by
  constructor
  case mp =>
    intro heq
    have hlength (l : List α) :
        (l.flatMap fun a => f a ++ h a).length = (l.flatMap f).length + (l.flatMap h).length := by
      induction l with
      | nil => rfl
      | cons a l ih =>
        simp only [List.flatMap_cons, List.length_append, ih]
        omega
    have := heq ▸ hlength l
    exact List.flatMap_eq_nil_iff.mp (List.eq_nil_of_length_eq_zero (by omega))
  case mpr =>
    intro hf
    rw [List.flatMap_def, List.flatMap_def]
    exact congrArg List.flatten (List.map_congr_left fun a ha => by rw [hf a ha, List.nil_append])

-- Only the texts in front of the modules' code can bring tokens into the frame.
theorem lex_layout_eq_frame_iff (hb : ∀ m ∈ g.modules, runsOut m.body.toList = false)
    (hf : ∀ m ∈ g.modules, EndsLine (front m).toList ∧ runsOut (front m).toList = false) :
    (lex (layout front g)).map Token.kind = frame g ↔
      ∀ m ∈ g.modules, kinds (front m).toList = [] := by
  rw [lex_layout hb hf, frame, List.append_cancel_right_eq, List.append_cancel_left_eq,
    flatMap_append_eq_iff]

end Layout

section Remark

variable {m : Module} {g : Graph}

theorem toList_remark (m : Module) :
    (remark m).toList = '-' :: '-' :: (" Module: ".toList ++ m.id.text.toList ++ ['\n']) := by
  unfold remark
  simp

theorem endsLine_remark (m : Module) : EndsLine (remark m).toList := by
  rw [toList_remark]
  exact endsLine_concat ('-' :: '-' :: (" Module: ".toList ++ m.id.text.toList))

theorem isTrivia_remark (h : '\n' ∉ m.id.text.toList) : IsTrivia (remark m).toList := by
  rw [toList_remark]
  exact isTrivia_line (by simpa using h) (by simp)

theorem kinds_remark (h : '\n' ∉ m.id.text.toList) :
    runsOut (remark m).toList = false ∧ kinds (remark m).toList = [] := by
  have hruns := (isTrivia_remark h).runsOut_append []
  have hkinds := (isTrivia_remark h).kinds_append []
  rw [List.append_nil] at hruns hkinds
  exact ⟨hruns.trans runsOut_nil, hkinds.trans kinds_nil⟩

theorem lex_emit_eq_frame_iff (hb : ∀ m ∈ g.modules, runsOut m.body.toList = false)
    (hr : ∀ m ∈ g.modules, runsOut (remark m).toList = false) :
    (lex (emit g)).map Token.kind = frame g ↔ ∀ m ∈ g.modules, kinds (remark m).toList = [] := by
  rw [emit_eq_layout]
  exact lex_layout_eq_frame_iff hb fun m hm => ⟨endsLine_remark m, hr m hm⟩

end Remark

end Bundle

theorem not_runsOut_body {files : FiniteFiles} {options : Options} {entry : Path} {g : Graph}
    (h : (buildGraph files options entry).result = .ok g)
    (hs : ∀ m ∈ g.modules, runsOut (program m.source) = false) :
    ∀ m ∈ g.modules, runsOut m.body.toList = false := by
  intro m hm
  obtain ⟨requires, hok, hcalls⟩ := Builder.scanned_of_buildGraph h m hm
  exact (kinds_embed hok (Module.map_fst_calls_sublist (hcalls ▸ List.filter_sublist))).2 (hs m hm)

-- The frame of a bundle holds where no id brings a line feed into a remark. While each remark ends
-- outside of strings and comments it holds exactly where the remarks say nothing, and without the
-- remarks it holds whatever the ids and file names are.
theorem bundle_framed {files : FiniteFiles} {options : Options} {entry : Path} {text : String}
    (h : (bundle files options entry).result = .ok text) :
    ∃ g, (buildGraph files options entry).result = .ok g ∧ text = Bundle.layout Bundle.remark g ∧
      ((∀ m ∈ g.modules, runsOut (program m.source) = false) →
        ((∀ m ∈ g.modules, '\n' ∉ m.id.text.toList) →
          (lex text).map Token.kind = Bundle.frame g) ∧
        ((∀ m ∈ g.modules, runsOut (Bundle.remark m).toList = false) →
          ((lex text).map Token.kind = Bundle.frame g ↔
            ∀ m ∈ g.modules, kinds (Bundle.remark m).toList = [])) ∧
        (lex (Bundle.layout (fun _ => "") g)).map Token.kind = Bundle.frame g) := by
  obtain ⟨g, hg, rfl⟩ := exists_of_map_eq_ok h
  refine ⟨g, hg, Bundle.emit_eq_layout g, fun hs => ?_⟩
  have hb := not_runsOut_body hg hs
  refine ⟨fun hid => ?_, fun hr => Bundle.lex_emit_eq_frame_iff hb hr, ?_⟩
  · have hremark m hm := Bundle.kinds_remark (hid m hm)
    exact (Bundle.lex_emit_eq_frame_iff hb fun m hm => (hremark m hm).1).mpr
      fun m hm => (hremark m hm).2
  · refine (Bundle.lex_layout_eq_frame_iff hb fun m _ => ?_).mpr fun m _ => kinds_nil
    exact ⟨fun c hc => by simp at hc, runsOut_nil⟩

-- A name with a quote and a control character, a body that ends in a comment and an empty one.
def quotedName : Memory :=
  Memory.empty
    |>.addFile ⟨"/p/main.lua"⟩ "return require './a\"\\1' -- end"
    |>.addFile ⟨"/p/a\"\x01.lua"⟩ ""

theorem bundle_framed_quotedName :
    ∃ g text, (buildGraph quotedName.fileSystem .default ⟨"/p/main.lua"⟩).result = .ok g ∧
      g.modules.map (fun m => m.id.text) = ["main", "a\"\x01"] ∧
      (bundle quotedName.fileSystem .default ⟨"/p/main.lua"⟩).result = .ok text ∧
      (lex text).map Token.kind = Bundle.frame g := by
  have hgraph : (buildGraph quotedName.fileSystem .default ⟨"/p/main.lua"⟩).result.map
      (fun g => (g.modules.map fun m => m.id.text,
        g.modules.all fun m => !runsOut (program m.source) && '\n' ∉ m.id.text.toList)) =
        .ok (["main", "a\"\x01"], true) := by
    decide +kernel
  obtain ⟨g, hg, hdata⟩ := exists_of_map_eq_ok hgraph
  obtain ⟨hids, hall⟩ := Prod.mk.inj hdata
  simp only [List.all_eq_true, Bool.and_eq_true, Bool.not_eq_true', decide_eq_true_eq] at hall
  have hbundle : (bundle quotedName.fileSystem .default ⟨"/p/main.lua"⟩).result =
      .ok (Bundle.emit g) := by
    simp only [bundle, hg, Except.map]
  obtain ⟨g', hg', -, hframed⟩ := bundle_framed hbundle
  obtain rfl : g' = g := Except.ok.inj (hg'.symm.trans hg)
  exact ⟨g', _, hg, hids, hbundle, (hframed fun m hm => (hall m hm).1).1 fun m hm => (hall m hm).2⟩

-- A name with a line feed: what stands behind it is code.
def brokenName : Memory :=
  Memory.empty
    |>.addFile ⟨"/p/main.lua"⟩ "return require './a\\nb'\n"
    |>.addFile ⟨"/p/a\nb.lua"⟩ "return 1\n"

theorem bundle_not_framed_brokenName :
    ∃ g text, (buildGraph brokenName.fileSystem .default ⟨"/p/main.lua"⟩).result = .ok g ∧
      (bundle brokenName.fileSystem .default ⟨"/p/main.lua"⟩).result = .ok text ∧
      (∀ m ∈ g.modules, runsOut (program m.source) = false) ∧
      (lex text).map Token.kind ≠ Bundle.frame g := by
  have hgraph : (buildGraph brokenName.fileSystem .default ⟨"/p/main.lua"⟩).result.map
      (fun g => (g.modules.all fun m =>
          !runsOut (program m.source) && !runsOut (Bundle.remark m).toList,
        g.modules.all fun m => kinds (Bundle.remark m).toList = [])) = .ok (true, false) := by
    decide +kernel
  obtain ⟨g, hg, hdata⟩ := exists_of_map_eq_ok hgraph
  obtain ⟨hall, hnone⟩ := Prod.mk.inj hdata
  simp only [List.all_eq_true, Bool.and_eq_true, Bool.not_eq_true'] at hall
  have hs m hm := (hall m hm).1
  refine ⟨g, Bundle.emit g, hg, by simp only [bundle, hg, Except.map], hs, fun hframe => ?_⟩
  have hkinds := (Bundle.lex_emit_eq_frame_iff (not_runsOut_body hg hs)
    fun m hm => (hall m hm).2).mp hframe
  refine Bool.eq_false_iff.mp hnone (List.all_eq_true.mpr fun m hm => ?_)
  exact decide_eq_true (hkinds m hm)

end LuaBundle

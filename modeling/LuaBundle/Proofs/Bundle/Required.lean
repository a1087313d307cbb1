import LuaBundle.Proofs.Bundle.Framing
import LuaBundle.Proofs.Module.Closed

namespace LuaBundle

open Lua

namespace Bundle

def defineName : String :=
  "__define"

-- The id that a function is called with where a token and those behind it begin such a call.
def calledId? (function : String) : List Kind → Option String
  | k :: k' :: .str id :: _ =>
    if k = .name function ∧ k' = .symbol "(" then some id else none
  | _ => none

-- The ids that a function is called with, in the order of the calls.
def calledIds (function : String) : List Kind → List String
  | [] => []
  | k :: more => (calledId? function (k :: more)).toList ++ calledIds function more

-- Code in which a function is not called with an id, and that does not break off in the middle of
-- such a call.
def Uncalled (function : String) (front : List Kind) : Prop :=
  calledIds function front = [] ∧
    front.getLast?.all fun k => k ≠ .name function ∧ k ≠ .symbol "("

instance (function : String) (front : List Kind) : Decidable (Uncalled function front) :=
  inferInstanceAs (Decidable (_ ∧ _))

section CalledIds

variable {function id : String} {k : Kind} {front more : List Kind} {calls : List (Span × String)}
  {tokens : List Token}

theorem calledId?_eq_none (h : k ≠ .name function) : calledId? function (k :: more) = none := by
  unfold calledId?
  split
  case h_1 heq =>
    obtain ⟨rfl, -⟩ := List.cons.inj heq
    exact if_neg fun hcall => h hcall.1
  case h_2 => rfl

theorem calledId?_of_second {k' : Kind} (h : k' ≠ .symbol "(") :
    calledId? function (k :: k' :: more) = none := by
  unfold calledId?
  split
  case h_1 heq =>
    obtain ⟨-, heq⟩ := List.cons.inj heq
    obtain ⟨rfl, -⟩ := List.cons.inj heq
    exact if_neg fun hcall => h hcall.2
  case h_2 => rfl

theorem calledIds_cons (h : k ≠ .name function) :
    calledIds function (k :: more) = calledIds function more := by
  rw [calledIds, calledId?_eq_none h]
  rfl

-- Code that does not name a function does not call it.
theorem calledIds_append (h : .name function ∉ front) :
    calledIds function (front ++ more) = calledIds function more := by
  induction front with
  | nil => rfl
  | cons k front ih =>
    rw [List.cons_append, calledIds_cons fun hk => h (hk ▸ List.mem_cons_self)]
    exact ih fun hmem => h (.tail k hmem)

theorem calledIds_call (function id : String) (more : List Kind) :
    calledIds function (.name function :: .symbol "(" :: .str id :: more) =
      id :: calledIds function more := by
  rw [calledIds, calledIds_cons (by simp), calledIds_cons (by simp)]
  simp [calledId?]

theorem calledIds_callKinds (id : String) (more : List Kind) :
    calledIds requireName (callKinds id ++ more) = id :: calledIds requireName more := by
  rw [callKinds, List.cons_append, List.cons_append, List.cons_append, calledIds_call]
  exact congrArg _ (calledIds_cons (by simp))

theorem mem_of_mem_later {span : Span} {t : Token}
    (h : t ∈ (tokens.dropWhile fun t => !span.holds t).dropWhile span.holds) : t ∈ tokens :=
  (List.dropWhile_sublist _).subset ((List.dropWhile_sublist _).subset h)

-- Substitution brings nothing into code but the calls.
theorem mem_of_mem_substitute (h : k ∈ substitute calls tokens) :
    (∃ t ∈ tokens, t.kind = k) ∨ ∃ id, k ∈ callKinds id := by
  induction calls generalizing tokens with
  | nil => exact .inl (List.mem_map.mp h)
  | cons call calls ih =>
    rcases List.mem_append.mp h with h | h
    case inl =>
      obtain ⟨t, ht, hk⟩ := List.mem_map.mp h
      exact .inl ⟨t, (List.takeWhile_prefix _).subset ht, hk⟩
    case inr =>
      rcases List.mem_append.mp h with h | h
      case inl => exact .inr ⟨call.2, h⟩
      case inr => exact (ih h).imp_left fun ⟨t, ht, hk⟩ => ⟨t, mem_of_mem_later ht, hk⟩

-- The calls that are put into code are all there are of their function, if the code does not name
-- it.
theorem calledIds_substitute (h : ∀ t ∈ tokens, t.kind ≠ .name requireName) (more : List Kind) :
    calledIds requireName (substitute calls tokens ++ more) =
      calls.map Prod.snd ++ calledIds requireName more := by
  have hfront {front : List Token} (hf : ∀ t ∈ front, t ∈ tokens) :
      .name requireName ∉ front.map Token.kind := by
    intro hmem
    obtain ⟨t, ht, hkind⟩ := List.mem_map.mp hmem
    exact h t (hf t ht) hkind
  induction calls generalizing tokens with
  | nil => exact calledIds_append (hfront fun _ ht => ht)
  | cons call calls ih =>
    rw [substitute, List.append_assoc, List.append_assoc,
      calledIds_append (hfront fun _ ht => (List.takeWhile_prefix _).subset ht),
      calledIds_callKinds, ih (fun t ht => h t (mem_of_mem_later ht)) fun hf =>
        hfront fun t ht => mem_of_mem_later (hf t ht)]
    rfl

-- What does not call a function does not call it in front of other code either.
theorem Uncalled.append (h : Uncalled function front) :
    calledIds function (front ++ more) = calledIds function more := by
  obtain ⟨hnone, hlast⟩ := h
  induction front with
  | nil => rfl
  | cons k front ih =>
    obtain ⟨hid, hnone⟩ := List.append_eq_nil_iff.mp hnone
    rw [List.cons_append, calledIds]
    match front with
    | [] =>
      have hk : k ≠ .name function ∧ k ≠ .symbol "(" := by simpa using hlast
      exact congrArg (·.toList ++ _) (calledId?_eq_none hk.1)
    | [k'] =>
      have hk : k' ≠ .name function ∧ k' ≠ .symbol "(" := by simpa using hlast
      rw [ih hnone (by simpa using hk), List.singleton_append, calledId?_of_second hk.2]
      rfl
    | k' :: k'' :: front =>
      have hnext : calledId? function (k :: (k' :: k'' :: front ++ more)) = none := by
        cases k'' with
        | str => exact Option.toList_eq_nil_iff.mp hid
        | name | number | symbol => rfl
      rw [ih hnone (by simpa using hlast), hnext]
      rfl

end CalledIds

section Prelude

variable {function : String} {more : List Kind}

theorem kinds_lines {lines : List String} (h : ∀ line ∈ lines, runsOut line.toList = false) :
    kinds (lines.flatMap fun line => line.toList ++ ['\n']) =
      lines.flatMap fun line => kinds line.toList := by
  induction lines with
  | nil => exact kinds_nil
  | cons line lines ih =>
    rw [List.flatMap_cons, List.flatMap_cons, List.append_assoc, List.singleton_append,
      kinds_append (h line List.mem_cons_self) (.inr rfl), kinds_cons_space (by decide),
      ih fun line hl => h line (.tail _ hl)]

-- The prelude declares both functions and calls neither with an id.
theorem uncalled_preludeLines : ∀ line ∈ preludeLines, ∀ function ∈ [defineName, requireName],
    Uncalled function (kinds line.toList) := by
  have of_chars {s : List Char}
      (h : ∀ function ∈ [defineName, requireName], Uncalled function (kinds s)) :
      ∀ function ∈ [defineName, requireName],
        Uncalled function (kinds (String.ofList s).toList) := by
    rwa [String.toList_ofList]
  rw [preludeLines]
  repeat' refine List.forall_mem_cons.mpr ⟨of_chars (by decide +kernel), ?_⟩
  simp

theorem calledIds_prelude (h : function ∈ [defineName, requireName]) :
    calledIds function ((lex prelude).map Token.kind ++ more) = calledIds function more := by
  rw [lex_prelude, toList_prelude, kinds_lines runsOut_of_mem_preludeLines]
  have hline line hl := uncalled_preludeLines line hl function h
  generalize preludeLines = lines at hline
  induction lines with
  | nil => rfl
  | cons line lines ih =>
    rw [List.flatMap_cons, List.append_assoc, (hline line List.mem_cons_self).append]
    exact ih fun line hl => hline line (.tail _ hl)

end Prelude

section Frame

variable {files : FiniteFiles} {options : Options} {entry : Path} {g : Graph} {m : Module}
  {root : Path} {text : String}

-- Sources that leave the names of the bundle's own functions alone.
def LeavesNames (m : Module) : Prop :=
  ∀ t ∈ lex m.source, t.kind ≠ .name defineName ∧ t.kind ≠ .name requireName

variable (root) in
-- The code that puts a module in calls the one function with its id and the other with the ids of
-- its references.
theorem calledIds_definition (h : LeavesNames m)
    (hb : (lex ("\n" ++ m.body)).map Token.kind = substitute m.calls (lex m.source))
    (more : List Kind) :
    calledIds defineName (definitionKinds root m ++ more) =
        m.id.text :: calledIds defineName more ∧
      calledIds requireName (definitionKinds root m ++ more) =
        m.calls.map Prod.snd ++ calledIds requireName more := by
  let parameters : List Kind := [.symbol ",", .str (m.path.relativeTo root), .symbol ",",
    .name "function", .symbol "(", .symbol "...", .symbol ")"]
  have hparameters {function : String} (hf : function ∈ [defineName, requireName]) :
      Uncalled function parameters ∧ Uncalled function [.name "end", .symbol ")"] := by
    rcases List.mem_pair.mp hf with rfl | rfl <;>
      simp [parameters, Uncalled, calledIds, calledId?, defineName, requireName]
  have hd : defineName ∈ [defineName, requireName] := List.mem_cons_self
  have hr : requireName ∈ [defineName, requireName] := .tail _ List.mem_cons_self
  have hkinds : definitionKinds root m ++ more = .name defineName :: .symbol "(" ::
      .str m.id.text :: (parameters ++ (substitute m.calls (lex m.source) ++
        ([.name "end", .symbol ")"] ++ more))) := by
    rw [definitionKinds, hb, List.append_assoc, List.append_assoc]
    rfl
  rw [hkinds]
  constructor
  case left =>
    have hnone : .name defineName ∉ substitute m.calls (lex m.source) := by
      intro hmem
      rcases mem_of_mem_substitute hmem with ⟨t, ht, hkind⟩ | ⟨id, hcall⟩
      case inl => exact (h t ht).1 hkind
      case inr => simp [callKinds, defineName, requireName] at hcall
    rw [calledIds_call, (hparameters hd).1.append, calledIds_append hnone,
      (hparameters hd).2.append]
  case right =>
    rw [calledIds_cons (by simp [defineName, requireName]), calledIds_cons (by simp),
      calledIds_cons (by simp), (hparameters hr).1.append,
      calledIds_substitute fun t ht => (h t ht).2, (hparameters hr).2.append]

variable (root) in
theorem calledIds_definitions {modules : List Module} (h : ∀ m ∈ modules, LeavesNames m)
    (hb : ∀ m ∈ modules,
      (lex ("\n" ++ m.body)).map Token.kind = substitute m.calls (lex m.source))
    (more : List Kind) :
    calledIds defineName (modules.flatMap (definitionKinds root) ++ more) =
        modules.map (·.id.text) ++ calledIds defineName more ∧
      calledIds requireName (modules.flatMap (definitionKinds root) ++ more) =
        (modules.flatMap fun m => m.calls.map Prod.snd) ++ calledIds requireName more := by
  induction modules with
  | nil => exact ⟨rfl, rfl⟩
  | cons m modules ih =>
    obtain ⟨hdefined, hrequired⟩ := calledIds_definition root (h m List.mem_cons_self)
      (hb m List.mem_cons_self) (modules.flatMap (definitionKinds root) ++ more)
    obtain ⟨hdefines, hrequires⟩ :=
      ih (fun m hm => h m (.tail _ hm)) fun m hm => hb m (.tail _ hm)
    rw [List.flatMap_cons, List.flatMap_cons, List.append_assoc, hdefined, hrequired, hdefines,
      hrequires, List.append_assoc]
    exact ⟨rfl, rfl⟩

-- The frame of a bundle puts in the modules of its graph, and calls what `required` lists.
theorem calledIds_frame (h : ∀ m ∈ g.modules, LeavesNames m)
    (hb : ∀ m ∈ g.modules,
      (lex ("\n" ++ m.body)).map Token.kind = substitute m.calls (lex m.source)) :
    calledIds defineName (frame g) = g.modules.map (·.id.text) ∧
      (calledIds requireName (frame g)).Perm (required g) := by
  obtain ⟨hdefined, hrequired⟩ :=
    calledIds_definitions (root g) h hb (footerKinds g.entry)
  have hfooter : calledIds requireName (footerKinds g.entry) = [g.entry.text] := by
    rw [footerKinds, calledIds_cons (by simp [requireName]), ← List.append_nil (callKinds _),
      calledIds_callKinds]
    rfl
  have hnone : calledIds defineName (footerKinds g.entry) = [] := by
    simp [footerKinds, callKinds, calledIds, calledId?, defineName, requireName]
  rw [frame, List.append_assoc, calledIds_prelude (by simp), calledIds_prelude (by simp), hdefined,
    hrequired, hfooter, hnone, List.append_nil]
  exact ⟨rfl, List.perm_append_singleton _ _⟩

end Frame

end Bundle

-- The text of a bundle puts in the modules of its graph, calls the ids that are required, and puts
-- in each of these exactly once.
theorem calledIds_bundle {files : FiniteFiles} {options : Options} {entry : Path} {text : String}
    (h : (bundle files options entry).result = .ok text) :
    ∃ g, (buildGraph files options entry).result = .ok g ∧
      ((∀ m ∈ g.modules, runsOut (program m.source) = false ∧ '\n' ∉ m.id.text.toList ∧
          Bundle.LeavesNames m) →
        let defined := Bundle.calledIds Bundle.defineName ((lex text).map Token.kind)
        let required := Bundle.calledIds requireName ((lex text).map Token.kind)
        defined = g.modules.map (·.id.text) ∧ required.Perm (Bundle.required g) ∧
          ∀ id ∈ required, defined.count id = 1) := by
  obtain ⟨g, hg, rfl⟩ := exists_of_map_eq_ok h
  refine ⟨g, hg, fun hm => ?_⟩
  have hbody : ∀ m ∈ g.modules,
      (lex ("\n" ++ m.body)).map Token.kind = substitute m.calls (lex m.source) := by
    intro m hm
    obtain ⟨requires, hscan, hcalls⟩ := Builder.scanned_of_buildGraph hg m hm
    rw [lex_line_feed]
    exact (kinds_embed hscan (Module.map_fst_calls_sublist (hcalls ▸ List.filter_sublist))).1
  have hframe : (lex (Bundle.emit g)).map Token.kind = Bundle.frame g := by
    have hremark m h := Bundle.kinds_remark (hm m h).2.1
    exact (Bundle.lex_emit_eq_frame_iff (not_runsOut_body hg fun m h => (hm m h).1)
      fun m h => (hremark m h).1).mpr fun m h => (hremark m h).2
  obtain ⟨hdefined, hrequired⟩ := Bundle.calledIds_frame (fun m h => (hm m h).2.2) hbody
  rw [hframe, hdefined]
  refine ⟨rfl, hrequired, fun id hid => ?_⟩
  exact Bundle.count_eq_one_of_mem_required hg (hrequired.subset hid)

end LuaBundle

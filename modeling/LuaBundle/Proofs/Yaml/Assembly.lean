import LuaBundle.Proofs.Yaml.Layout
import LuaBundle.Yaml.Read

namespace LuaBundle.Yaml

namespace Value

mutual

-- The node that a value is read back as.
def node : Value → Node
  | null => .scalar true none "null"
  | text t => .scalar (Style.of t = .plain) none t
  | list items => .sequence (nodes items)
  | record entries => .mapping (entryNodes entries)

def nodes : List Value → List Node
  | [] => []
  | v :: rest => node v :: nodes rest

def entryNodes : List (String × Value) → List (Node × Node)
  | [] => []
  | (key, v) :: rest => (.scalar true none key, node v) :: entryNodes rest

end

end Value

namespace Assembly

open Value LuaBundle.Yaml.Frame

variable {f : Frame} {outer : List Open} {s s' : Assembly} {t : Token} {ts : List Token}
  {items : List Node} {entries : List (Node × Node)} {k n : Node}

-- A document without anchors and tags, inside a part of it.
def within (f : Frame) (outer : List Open) : Assembly :=
  ⟨.inside false, false, [], ⟨f, none⟩ :: outer, .none, [], []⟩

theorem foldlM_cons (h : s.feed t = .ok s') (ts : List Token) :
    (t :: ts).foldlM feed s = ts.foldlM feed s' := by
  rw [List.foldlM_cons, h]
  rfl

theorem feed_scalar {isPlain : Bool} {text : String} (h : f.awaits) :
    (within f outer).feed (.scalar isPlain text) =
      .ok (within (f.fill (.scalar isPlain none text)) outer) := by
  have hawaits : (within f outer).awaits = true := h
  have hinside : (within f outer).feedInside (.scalar isPlain text) =
      .ok (within (f.fill (.scalar isPlain none text)) outer) := by
    rw [feedInside, if_pos hawaits]
    rfl
  exact hinside

-- Tokens that are no nodes by themselves and stand inside a document.
def isSign : Token → Bool
  | .blockSequence | .blockMapping | .blockEnd | .blockEntry => true
  | .flowSequence | .flowSequenceEnd | .flowMapping | .flowMappingEnd | .flowEntry => true
  | .key | .value => true
  | _ => false

theorem feed_begin {g : Frame} (ht : isSign t) (hf : f.awaits) (hg : f.begin? t = some g) :
    (within f outer).feed t = .ok (within g (⟨f, none⟩ :: outer)) := by
  have hbegin : ((within f outer).parts.head?.bind fun o =>
      if o.frame.awaits then o.frame.begin? t else none) = some g := by
    simp [within, hf, hg]
  have hinside : (within f outer).feed t = (within f outer).feedInside t := by
    cases t
    all_goals first | rfl | cases ht
  rw [hinside]
  cases t
  all_goals first
    | exact absurd ht Bool.false_ne_true
    | (simp only [feedInside, hbegin]; rfl)

theorem feed_meet (ht : isSign t) (hf : f.awaits = false ∨ f.begin? t = none) :
    (within f outer).feed t = meet t (within f outer) (⟨f, none⟩ :: outer) none := by
  have hnone : ((within f outer).parts.head?.bind fun o =>
      if o.frame.awaits then o.frame.begin? t else none) = none := by
    rcases hf with hf | hf
    all_goals simp [within, hf]
  have hinside : (within f outer).feed t = (within f outer).feedInside t := by
    cases t
    all_goals first | rfl | cases ht
  rw [hinside]
  cases t
  all_goals first
    | exact absurd ht Bool.false_ne_true
    | (simp only [feedInside, hnone]; rfl)

-- A token that belongs to the part it meets.
theorem feed_stay {g : Frame} (ht : isSign t) (hf : f.awaits = false ∨ f.begin? t = none)
    (hg : f.react t = .stay g) : (within f outer).feed t = .ok (within g outer) := by
  rw [feed_meet ht hf, meet]
  simp only [Option.elim, hg]
  rfl

-- A token that ends the part it meets.
theorem feed_close {g : Frame} (ht : isSign t) (hf : f.awaits = false ∨ f.begin? t = none)
    (hn : f.react t = .close n) :
    (within f (⟨g, none⟩ :: outer)).feed t = .ok (within (g.fill n) outer) := by
  rw [feed_meet ht hf, meet]
  simp only [Option.elim, hn]
  rfl

-- What can stand behind an entry of a block mapping: the next key, or the end.
def EndsEntry (ts : List Token) : Prop :=
  ts.head? = some .key ∨ ts.head? = some .blockEnd

-- A list under a key has ended where the next key or the end of the mapping stands.
theorem foldlM_hangingSequence (hts : EndsEntry ts) :
    ts.foldlM feed (within (hangingSequence items false)
        (⟨blockMapping entries (.content k), none⟩ :: outer)) =
      ts.foldlM feed (within (blockMapping ((k, sequenceOf items) :: entries) .entry) outer) := by
  cases ts with
  | nil => simp [EndsEntry] at hts
  | cons t ts =>
    have ht : t = .key ∨ t = .blockEnd := by simpa [EndsEntry] using hts
    rcases ht with rfl | rfl
    all_goals rfl

theorem endsEntry_entryPieces (es : List (String × Value)) (hts : EndsEntry ts) :
    EndsEntry (entryPieces es ++ ts) := by
  cases es with
  | nil => exact hts
  | cons e es => exact .inl rfl

section Values

mutual

theorem foldlM_pieces {f : Frame} {outer : List Open} {ts : List Token} {isHanging : Bool}
    (v : Value) (hf : f.awaits)
    (hh : isHanging → (∃ entries k, f = blockMapping entries (.content k)) ∧ EndsEntry ts) :
    (pieces isHanging v ++ ts).foldlM feed (within f outer) =
      ts.foldlM feed (within (f.fill (node v)) outer) := by
  match v with
  | null => exact foldlM_cons (feed_scalar hf) ts
  | text t => exact foldlM_cons (feed_scalar hf) ts
  | list [] =>
    exact (foldlM_cons (feed_begin rfl hf rfl) _).trans
      (foldlM_cons (feed_close rfl (.inr rfl) rfl) ts)
  | list (v :: rest) =>
    cases isHanging with
    | false =>
      have hitems : (itemPieces (v :: rest) ++ .blockEnd :: ts).foldlM feed
          (within (blockSequence [] false) (⟨f, none⟩ :: outer)) = _ :=
        foldlM_itemPieces (F := blockSequence) (v :: rest) (.inl rfl)
      have hclose : (within (blockSequence ((nodes (v :: rest)).reverse ++ []) false)
          (⟨f, none⟩ :: outer)).feed .blockEnd = .ok (within (f.fill (node (list (v :: rest)))) outer) := by
        rw [feed_close rfl (.inl rfl) rfl]
        simp [sequenceOf, node]
      have hpieces : pieces false (list (v :: rest)) ++ ts =
          .blockSequence :: (itemPieces (v :: rest) ++ .blockEnd :: ts) := by
        simp [pieces, itemPieces]
      rw [hpieces, foldlM_cons (feed_begin rfl hf rfl), hitems, foldlM_cons hclose]
    | true =>
      obtain ⟨⟨entries, k, rfl⟩, hts⟩ := hh rfl
      have hfirst : (pieces false v ++ (itemPieces rest ++ ts)).foldlM feed
          (within (hangingSequence [] true) (⟨blockMapping entries (.content k), none⟩ :: outer)) =
            _ :=
        foldlM_pieces v rfl (by simp)
      have hitems : (itemPieces rest ++ ts).foldlM feed (within (hangingSequence [node v] false)
          (⟨blockMapping entries (.content k), none⟩ :: outer)) = _ :=
        foldlM_itemPieces (F := hangingSequence) rest (.inr rfl)
      have hpieces : pieces true (list (v :: rest)) ++ ts =
          .blockEntry :: (pieces false v ++ (itemPieces rest ++ ts)) := by
        simp [pieces]
      have hnode : sequenceOf ((nodes rest).reverse ++ [node v]) = node (list (v :: rest)) := by
        simp [sequenceOf, node, nodes]
      rw [hpieces, foldlM_cons (feed_begin rfl hf rfl), hfirst]
      refine hitems.trans ((foldlM_hangingSequence hts).trans ?_)
      rw [hnode]
      rfl
  | record [] =>
    exact (foldlM_cons (feed_begin rfl hf rfl) _).trans
      (foldlM_cons (feed_close rfl (.inr rfl) rfl) ts)
  | record ((key, v) :: rest) =>
    have hentries : (entryPieces ((key, v) :: rest) ++ .blockEnd :: ts).foldlM feed
        (within (blockMapping [] .entry) (⟨f, none⟩ :: outer)) = _ :=
      foldlM_entryPieces ((key, v) :: rest) (.inr rfl)
    have hclose : (within (blockMapping ((entryNodes ((key, v) :: rest)).reverse ++ []) .entry)
        (⟨f, none⟩ :: outer)).feed .blockEnd =
        .ok (within (f.fill (node (record ((key, v) :: rest)))) outer) := by
      rw [feed_close rfl (.inl rfl) rfl]
      simp [mappingOf, node]
    have hpieces : pieces isHanging (record ((key, v) :: rest)) ++ ts =
        .blockMapping :: (entryPieces ((key, v) :: rest) ++ .blockEnd :: ts) := by
      simp [pieces, entryPieces]
    rw [hpieces, foldlM_cons (feed_begin rfl hf rfl), hentries, foldlM_cons hclose]

theorem foldlM_itemPieces {F : List Node → Bool → Frame} {items : List Node} {outer : List Open}
    {ts : List Token} (vs : List Value) (hF : F = blockSequence ∨ F = hangingSequence) :
    (itemPieces vs ++ ts).foldlM feed (within (F items false) outer) =
      ts.foldlM feed (within (F ((nodes vs).reverse ++ items) false) outer) := by
  match vs with
  | [] => rfl
  | v :: rest =>
    have hdash : (within (F items false) outer).feed .blockEntry =
        .ok (within (F items true) outer) := by
      rcases hF with rfl | rfl
      all_goals exact feed_stay rfl (.inl rfl) rfl
    have hawaits : (F items true).awaits := by
      rcases hF with rfl | rfl
      all_goals rfl
    have hfill : (F items true).fill (node v) = F (node v :: items) false := by
      rcases hF with rfl | rfl
      all_goals rfl
    have hitem : (pieces false v ++ (itemPieces rest ++ ts)).foldlM feed
        (within (F items true) outer) = _ := foldlM_pieces v hawaits (by simp)
    rw [hfill] at hitem
    rw [itemPieces, List.cons_append, List.cons_append, foldlM_cons hdash, List.append_assoc, hitem,
      foldlM_itemPieces rest hF]
    simp [nodes]

theorem foldlM_entryPieces {entries : List (Node × Node)} {outer : List Open} {ts : List Token}
    (es : List (String × Value)) (hts : EndsEntry ts) :
    (entryPieces es ++ ts).foldlM feed (within (blockMapping entries .entry) outer) =
      ts.foldlM feed (within (blockMapping ((entryNodes es).reverse ++ entries) .entry) outer) := by
  match es with
  | [] => rfl
  | (key, v) :: rest =>
    have hkey : (within (blockMapping entries .entry) outer).feed .key =
        .ok (within (blockMapping entries .key) outer) := feed_stay rfl (.inl rfl) rfl
    have hname : (within (blockMapping entries .key) outer).feed (.scalar true key) =
        .ok (within (blockMapping entries (.value (.scalar true none key))) outer) :=
      feed_scalar rfl
    have hcolon : (within (blockMapping entries (.value (.scalar true none key))) outer).feed
        .value = .ok (within (blockMapping entries (.content (.scalar true none key))) outer) :=
      feed_stay rfl (.inl rfl) rfl
    have hvalue : (pieces true v ++ (entryPieces rest ++ ts)).foldlM feed
        (within (blockMapping entries (.content (.scalar true none key))) outer) = _ :=
      foldlM_pieces v rfl fun _ => ⟨⟨_, _, rfl⟩, endsEntry_entryPieces rest hts⟩
    have hpieces : entryPieces ((key, v) :: rest) ++ ts =
        .key :: .scalar true key :: .value :: (pieces true v ++ (entryPieces rest ++ ts)) := by
      simp [entryPieces]
    rw [hpieces, foldlM_cons hkey, foldlM_cons hname, foldlM_cons hcolon, hvalue]
    refine (foldlM_entryPieces rest hts).trans ?_
    simp [entryNodes]

end

end Values

end Assembly

-- A record is read back from the document that it is written to.
theorem read_write {entries : List (String × Value)} (hne : entries ≠ [])
    (h : (Value.record entries).OneLine) :
    read (write entries) = .ok ⟨some (Value.record entries).node, []⟩ := by
  obtain ⟨⟨key, v⟩, rest, rfl⟩ := List.exists_cons_of_ne_nil hne
  have hread : (Value.pieces false (.record ((key, v) :: rest)) ++ [Token.streamEnd]).foldlM
      Assembly.feed (Assembly.within (.document none) []) = _ :=
    Assembly.foldlM_pieces (.record ((key, v) :: rest)) rfl (by simp)
  -- the first token shows that a document begins here
  have hinitial : (Value.pieces false (.record ((key, v) :: rest)) ++ [Token.streamEnd]).foldlM
      Assembly.feed Assembly.initial = .ok { Assembly.within
        (.document (some (Value.record ((key, v) :: rest)).node)) [] with phase := .ended } :=
    hread
  rw [read, tokens_write hne h]
  exact congrArg (Except.map fun s => (⟨s.root?, s.anchored⟩ : Document)) hinitial

end LuaBundle.Yaml

import XmlOxydizer.Proofs.CaptureBuffer
import XmlOxydizer.Proofs.Evaluation

/-!
# What the parser state tracks

The invariant of the event loop. The state describes the open elements: a chain of levels
that are tracked and the elements below them, which are skipped or captured. Beside it
stands what can go wrong at a token, as a function of the open elements.
-/

namespace XmlOxydizer

open Markup

variable {R : Type}

/-! ### Faults -/

/-- The node of the capture that is under way, and the open elements from it on. -/
def DescriptorTree.openCapture (tree : DescriptorTree R) (z : OpenElements) :
    Option (NodeId × OpenElements) :=
  let ids := (tree.walk (tagsOf z)).ids
  match ids.getLast? with
  | some id => if tree.isCapture id then some (id, z.drop (ids.length - 1)) else none
  | none => none

/-- The error that a start token leads to: a name, or attributes that are read, cannot be
decoded, or a capture exceeds its limit. -/
def startFault (tree : DescriptorTree R) (z : OpenElements) (tag : BytesStart) :
    Option ReaderError :=
  match tree.openCapture z with
  | some (id, zs) =>
    tag.nameFault <|> tag.attrsFault <|>
      overflowFault tree id (spineCost zs + elementCost tag.tagName tag.attrs)
  | none =>
    let p := tree.walk (tagsOf z)
    if p.below > 0 then none
    else tag.nameFault <|>
      match tree.child p.ids tag.tagName with
      | none => none
      | some id =>
        (if tree.keepsAttrs id then tag.attrsFault else none) <|>
          if tree.isCapture id then
            overflowFault tree id (elementCost tag.tagName tag.attrs)
          else none

/-- The error that a text leads to: it is read and cannot be decoded, or a capture exceeds
its limit. -/
def leafFault (tree : DescriptorTree R) (z : OpenElements) (leaf : LeafEvent) :
    Option ReaderError :=
  match tree.openCapture z with
  | some (id, zs) =>
    leaf.fault <|> overflowFault tree id (spineCost zs + leaf.chars.utf8ByteSize)
  | none =>
    let p := tree.walk (tagsOf z)
    if p.below > 0 then none
    else if p.ids.getLast?.any tree.keepsText then leaf.fault else none

/-- The error that a token leads to. -/
def fault (tree : DescriptorTree R) (z : OpenElements) : Event → Option ReaderError
  | .start tag => startFault tree z tag
  | .empty tag => startFault tree z tag
  | .close => none
  | .leaf leaf => leafFault tree z leaf

/-! ### The invariant -/

/-- The rule results of the children in each stack frame. -/
def ParserState.resultStack (s : ParserState R) : List (List RuleResults) :=
  s.contextStack.map (fun ctx => ctx.children.map ChildSummary.ruleResults)

/-- The mode of the parser. Below the innermost level it skips or captures. -/
inductive ModeOk (tree : DescriptorTree R) (levels : List Level) (rest : OpenElements)
    (s : ParserState R) : Prop
  | streaming (hcapture : tree.inCapture (levels.map Level.id) = false)
      (hmode : s.mode = .streaming) (hskip : s.skipDepth = rest.length)
  | capturing (ls : List Level) (l : Level) (b : CaptureBuilder) (hlevels : levels = ls ++ [l])
      (hcapture : tree.isCapture l.id = true) (hb : BuilderOk tree l.id (l.frame :: rest) b)
      (hmode : s.mode = .capturing b (rest.length + 1) l.id ls.length) (hskip : s.skipDepth = 0)

/-- The state after the open elements `levels` and `rest`. -/
structure Tracks (tree : DescriptorTree R) (levels : List Level) (rest : OpenElements)
    (s : ParserState R) : Prop where
  levels_ok : OpenLevels tree levels
  walk_eq : tree.walk (tagsOf (levels.map Level.frame ++ rest)) =
    ⟨levels.map Level.id, rest.length⟩
  contextStack_eq : s.contextStack = levels.map Level.ctx
  descriptorStack_eq : s.descriptorStack = levels.map (fun l => some l.id)
  siblingCounters_eq : s.siblingCounters = levels.map (fun l => tally l.counted)
  attrPool_eq : s.attrPool.free = []
  mode_ok : ModeOk tree levels rest s

lemma openLevels_nil {tree : DescriptorTree R} : OpenLevels tree [] :=
  ⟨by simp, .nil, by simp, by simp, rfl⟩

lemma tracks_init (tree : DescriptorTree R) : Tracks tree [] [] (.init : ParserState R) :=
  ⟨openLevels_nil, rfl, rfl, rfl, rfl, rfl, .streaming rfl rfl rfl⟩

section Levels

variable {tree : DescriptorTree R} {ls : List Level} {l p c : Level}

lemma OpenLevels.last (h : OpenLevels tree (ls ++ [l])) : LevelOk tree l := h.ok l (by simp)

lemma OpenLevels.counted (h : OpenLevels tree (ls ++ [l])) : l.counted = l.summarizedTags tree :=
  h.counted_last l (by simp)

/-- The innermost level may be replaced by one for the same element. -/
lemma OpenLevels.replace (h : OpenLevels tree (ls ++ [l])) {l' : Level} (hl' : LevelOk tree l')
    (hid : l'.id = l.id) (htag : l'.tag = l.tag) (hindex : l'.ctx.index = l.ctx.index)
    (hcounted : l'.counted = l'.summarizedTags tree) : OpenLevels tree (ls ++ [l']) := by
  constructor
  case ok =>
    intro k hk
    rcases List.mem_append.mp hk with hk | hk
    · exact h.ok k (by simp [hk])
    · rw [List.mem_singleton.mp hk]
      exact hl'
  case linked =>
    have hlinked := h.linked
    rw [List.isChain_append] at hlinked ⊢
    refine ⟨hlinked.1, .singleton _, fun q hq k hk => ?_⟩
    obtain rfl : l' = k := by simpa using hk
    have hql := hlinked.2.2 q hq l (by simp)
    exact ⟨by rw [htag, hid, hql.child_eq], by rw [htag, hql.counted_eq], by rw [htag, hindex, hql.index_eq]⟩
  case counted_last => simpa using hcounted
  case root_index =>
    intro k hk
    cases ls with
    | nil =>
      obtain rfl : l' = k := by simpa using hk
      rw [hindex, h.root_index l (by simp)]
    | cons r ls => exact h.root_index k (by simpa using hk)
  case walk_eq =>
    have hwalk := h.walk_eq
    simp only [List.map_append, List.map_singleton, tagsOf_append, tagsOf_cons, tagsOf_nil, hid] at hwalk ⊢
    rw [← hwalk]
    simp only [Level.tag] at htag
    rw [htag]

/-- A declared child opens inside the innermost level, whose counters count it. -/
lemma OpenLevels.push (h : OpenLevels tree (ls ++ [p])) (hcapture : tree.isCapture p.id = false)
    (hc : LevelOk tree c) (hcounted : c.counted = c.summarizedTags tree)
    (hchild : tree.child [p.id] c.tag = some c.id)
    (hindex : c.ctx.index = siblingIndex (p.summarizedTags tree) c.tag) :
    OpenLevels tree (ls ++ [{ p with counted := p.counted ++ [c.tag] }] ++ [c]) := by
  let q : Level := { p with counted := p.counted ++ [c.tag] }
  have hq : LevelOk tree q := by
    have hp := h.last
    exact ⟨hp.contains, hp.descriptorId_eq, hp.name_ok, hp.attrs_eq, hp.attrs_ok, hp.text_eq,
      hp.text_ok, hp.children, hp.indices⟩
  constructor
  case ok =>
    intro k hk
    simp only [List.append_assoc, List.mem_append, List.mem_singleton] at hk
    rcases hk with hk | rfl | rfl
    · exact h.ok k (by simp [hk])
    · exact hq
    · exact hc
  case linked =>
    have hlinked := h.linked
    rw [List.isChain_append] at hlinked
    rw [List.isChain_append, List.isChain_append]
    refine ⟨⟨hlinked.1, .singleton _, fun k hk k' hk' => ?_⟩, .singleton _, fun k hk k' hk' => ?_⟩
    · obtain rfl : q = k' := by simpa using hk'
      have hkp := hlinked.2.2 k hk p (by simp)
      exact ⟨hkp.child_eq, hkp.counted_eq, hkp.index_eq⟩
    · obtain rfl : q = k := by simpa using hk
      obtain rfl : c = k' := by simpa using hk'
      exact ⟨hchild, by rw [show q.counted = p.counted ++ [c.tag] from rfl, h.counted]; rfl, hindex⟩
  case counted_last => simpa using hcounted
  case root_index =>
    intro k hk
    cases ls with
    | nil =>
      obtain rfl : q = k := by simpa using hk
      exact h.root_index p (by simp)
    | cons r ls => exact h.root_index k (by simpa using hk)
  case walk_eq =>
    have hwalk := h.walk_eq
    have hframes : tagsOf ((ls ++ [q] ++ [c]).map Level.frame) =
        tagsOf ((ls ++ [p]).map Level.frame) ++ [c.tag] := by
      simp [q, Level.tag]
    have hids : (ls ++ [q] ++ [c]).map Level.id = (ls ++ [p]).map Level.id ++ [c.id] := by
      simp [q]
    have hlookup : tree.child ((ls ++ [p]).map Level.id) c.tag = some c.id := by
      simpa [DescriptorTree.child] using hchild
    rw [hframes, DescriptorTree.walk_concat, hwalk, Position.enter, hids]
    simp only [lt_irrefl, false_or, List.map_append, List.map_singleton,
      DescriptorTree.inCapture_concat, hcapture, Bool.false_eq_true, if_false]
    rw [← List.map_singleton (f := Level.id), ← List.map_append, hlookup]

/-- The root opens. -/
lemma openLevels_root (hc : LevelOk tree c) (hcounted : c.counted = c.summarizedTags tree)
    (hchild : tree.child [] c.tag = some c.id) (hindex : c.ctx.index = 0) : OpenLevels tree [c] := by
  refine ⟨by simpa using hc, .singleton _, by simpa using hcounted, by simpa using hindex, ?_⟩
  have hwalk : tree.walk [c.tag] = Position.enter tree ⟨[], 0⟩ c.tag := rfl
  rw [Position.enter] at hwalk
  simp only [Level.tag] at hchild hwalk
  simpa [hchild] using hwalk

/-- What is left when the innermost level is taken away. -/
structure Popped (tree : DescriptorTree R) (ls : List Level) (p c : Level) : Prop where
  outer : OpenLevels tree (ls ++ [{ p with counted := p.summarizedTags tree }])
  inner : LevelOk tree c
  linked : Linked tree p c
  streaming : tree.isCapture p.id = false

/-- One tag back on the walk. -/
lemma walk_leave {path : List String} {tag : String} {ids : List NodeId} {k : ℕ}
    (h : tree.walk (path ++ [tag]) = ⟨ids, k + 1⟩) : tree.walk path = ⟨ids, k⟩ := by
  rw [DescriptorTree.walk_concat, Position.enter] at h
  generalize tree.walk path = q at h ⊢
  obtain ⟨ids', k'⟩ := q
  split at h
  case isTrue hbelow => simpa using h
  case isFalse hbelow =>
    split at h
    · simp at h
    · simp only [Position.mk.injEq, not_or] at h hbelow ⊢
      exact ⟨h.1, by omega⟩

/-- A walk that ends at a declared node comes from its parent. -/
lemma walk_leave_child {path : List String} {tag : String} {ids : List NodeId} {id : NodeId}
    (h : tree.walk (path ++ [tag]) = ⟨ids ++ [id], 0⟩) :
    tree.walk path = ⟨ids, 0⟩ ∧ tree.inCapture ids = false ∧ tree.child ids tag = some id := by
  rw [DescriptorTree.walk_concat, Position.enter] at h
  generalize tree.walk path = q at h ⊢
  obtain ⟨ids', k'⟩ := q
  split at h
  case isTrue hbelow => simp at h
  case isFalse hbelow =>
    simp only [not_or, gt_iff_lt, Nat.not_lt, Nat.le_zero, Bool.not_eq_true] at hbelow
    split at h
    case h_1 c hc =>
      simp only [Position.mk.injEq, and_true] at h
      obtain ⟨rfl, hcid⟩ := List.append_inj' h rfl
      obtain rfl := List.singleton_inj.mp hcid
      exact ⟨by rw [hbelow.1], hbelow.2, hc⟩
    case h_2 => simp at h

lemma OpenLevels.pop (h : OpenLevels tree (ls ++ [p] ++ [c])) : Popped tree ls p c := by
  have hwalk := h.walk_eq
  have hframes : tagsOf ((ls ++ [p] ++ [c]).map Level.frame) =
      tagsOf ((ls ++ [p]).map Level.frame) ++ [c.tag] := by
    simp [Level.tag]
  have hids : (ls ++ [p] ++ [c]).map Level.id = (ls ++ [p]).map Level.id ++ [c.id] := by simp
  rw [hframes, hids] at hwalk
  obtain ⟨houter, hcapture, -⟩ := walk_leave_child hwalk
  have hp := h.ok p (by simp)
  have hlinked := h.linked
  rw [List.isChain_append, List.isChain_append] at hlinked
  obtain ⟨⟨hls, -, hlink⟩, -, hpc⟩ := hlinked
  constructor
  case outer =>
    constructor
    case ok =>
      intro k hk
      rcases List.mem_append.mp hk with hk | hk
      · exact h.ok k (by simp [hk])
      · rw [List.mem_singleton.mp hk]
        exact ⟨hp.contains, hp.descriptorId_eq, hp.name_ok, hp.attrs_eq, hp.attrs_ok, hp.text_eq,
          hp.text_ok, hp.children, hp.indices⟩
    case linked =>
      rw [List.isChain_append]
      refine ⟨hls, .singleton _, fun k hk k' hk' => ?_⟩
      obtain rfl : _ = k' := by simpa using hk'
      have hkp := hlink k hk p (by simp)
      exact ⟨hkp.child_eq, hkp.counted_eq, hkp.index_eq⟩
    case counted_last =>
      intro k hk
      obtain rfl : _ = k := by simpa using hk
      rfl
    case root_index =>
      intro k hk
      cases ls with
      | nil =>
        obtain rfl : _ = k := by simpa using hk
        exact h.root_index p (by simp)
      | cons r ls => exact h.root_index k (by simpa using hk)
    case walk_eq => simpa using houter
  case inner => exact h.last
  case linked => exact hpc p (by simp) c (by simp)
  case streaming => simpa using hcapture

end Levels

end XmlOxydizer

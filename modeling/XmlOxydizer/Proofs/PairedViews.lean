import XmlOxydizer.Proofs.DeadRules
import XmlOxydizer.Proofs.PairedRuns

/-!
# The views of two runs

Where two runs are in step, the views of an element differ at most in the data that the
parser has kept: the data of the element itself, the summaries of its children and the stack
frames around it. Its place among its siblings depends on the tags alone.
-/

namespace XmlOxydizer

open Markup

variable {R : Type}

/-! ### The stack frames around an element -/

/-- Two stack frames with the same answers to the ancestor methods. -/
structure SameAnswers (ctx ctx' : NodeContext) : Prop where
  attr_eq : ∀ name, findAttr ctx.attrs name = findAttr ctx'.attrs name
  text_eq : ctx.text = ctx'.text
  children_eq : ctx.children = ctx'.children

/-- Two context stacks that agree at every level that a `usize` can name. -/
structure SameStacks (stack stack' : List NodeContext) : Prop where
  length_eq : stack.length = stack'.length
  answers : ∀ level ctx ctx', level + 1 < 2 ^ 64 → level < stack.length →
    stack[stack.length - 1 - level]? = some ctx → stack'[stack.length - 1 - level]? = some ctx' →
    SameAnswers ctx ctx'

section Stacks

variable {checks : OverflowChecks} {stack stack' : List NodeContext}

variable (checks) in
/-- An ancestor method finds nothing in either stack, or a frame at the same place in both. -/
lemma ancestorContext_cases (hlen : stack.length = stack'.length) (level : ℕ) :
    ancestorContext checks stack level = ancestorContext checks stack' level ∨
      ∃ i ctx ctx', i + 1 < 2 ^ 64 ∧ i < stack.length ∧ stack[stack.length - 1 - i]? = some ctx ∧
        stack'[stack.length - 1 - i]? = some ctx' ∧
        ancestorContext checks stack level = .ok (some ctx) ∧
        ancestorContext checks stack' level = .ok (some ctx') := by
  cases hup : usizeAdd checks level 1 with
  | error p => exact .inl (by simp [ancestorContext, hup])
  | ok up =>
    have hfits : up < 2 ^ 64 := by
      unfold usizeAdd at hup
      split at hup
      case isTrue hlt => cases hup; exact hlt
      case isFalse =>
        cases checks with
        | checked => cases hup
        | wrapping => cases hup; exact Nat.mod_lt _ (by positivity)
    by_cases hle : up ≤ stack.length
    case neg =>
      have hle' : ¬ up ≤ stack'.length := by rwa [← hlen]
      exact .inl (by simp [ancestorContext, hup, hle, hle'])
    case pos =>
      have hle' : up ≤ stack'.length := by rwa [← hlen]
      cases up with
      | zero =>
        have hnone : ∀ xs : List NodeContext, index xs xs.length = .error .outOfBounds :=
          fun xs => by simp [index]
        exact .inl (by simp [ancestorContext, hup, hnone])
      | succ i =>
        obtain ⟨ctx, hctx⟩ : ∃ ctx, stack[stack.length - 1 - i]? = some ctx :=
          ⟨_, List.getElem?_eq_getElem (by omega)⟩
        obtain ⟨ctx', hctx'⟩ : ∃ ctx', stack'[stack.length - 1 - i]? = some ctx' :=
          ⟨_, List.getElem?_eq_getElem (by omega)⟩
        have hplace : stack.length - (i + 1) = stack.length - 1 - i := by omega
        have hplace' : stack'.length - (i + 1) = stack.length - 1 - i := by omega
        refine .inr ⟨i, ctx, ctx', hfits, by omega, hctx, hctx', ?_, ?_⟩
        · simp [ancestorContext, hup, hle, hplace, index_ok hctx]
        · simp [ancestorContext, hup, hle', hplace', index_ok hctx']

variable (checks) in
/-- The ancestor methods agree exactly when the stacks do. -/
lemma sameStacks_iff (hlen : stack.length = stack'.length) : SameStacks stack stack' ↔
    ancestorAttr checks stack = ancestorAttr checks stack' ∧
      ancestorText checks stack = ancestorText checks stack' ∧
      ancestorChildren checks stack = ancestorChildren checks stack' := by
  constructor
  · intro h
    have hcases := ancestorContext_cases checks hlen
    refine ⟨?_, ?_, ?_⟩ <;> funext level <;>
      rcases hcases level with heq | ⟨i, ctx, ctx', hi, hlt, hctx, hctx', hfound, hfound'⟩
    · funext name
      simp only [ancestorAttr, heq]
    · funext name
      simp [ancestorAttr, hfound, hfound', (h.answers i ctx ctx' hi hlt hctx hctx').attr_eq name]
    · simp only [ancestorText, heq]
    · simp [ancestorText, hfound, hfound', (h.answers i ctx ctx' hi hlt hctx hctx').text_eq]
    · simp only [ancestorChildren, heq]
    · simp [ancestorChildren, hfound, hfound', (h.answers i ctx ctx' hi hlt hctx hctx').children_eq]
  · rintro ⟨hattr, htext, hchildren⟩
    refine ⟨hlen, fun level ctx ctx' hlevel hlt hctx hctx' => ?_⟩
    have hfound := ancestorContext_eq checks hlt hlevel hctx
    have hfound' : ancestorContext checks stack' level = .ok (some ctx') :=
      ancestorContext_eq checks (by omega) hlevel (by rwa [← hlen])
    constructor
    case attr_eq =>
      intro name
      have h := congrFun (congrFun hattr level) name
      simpa [ancestorAttr, hfound, hfound'] using h
    case text_eq =>
      have h := congrFun htext level
      simpa [ancestorText, hfound, hfound'] using h
    case children_eq =>
      have h := congrFun hchildren level
      simpa [ancestorChildren, hfound, hfound'] using h

end Stacks

/-! ### Views -/

/-- What a view shows to a rule that does not look at the subtree. -/
def NodeAccess.withoutSubtree (view : NodeAccess) : NodeAccess := { view with subtree := none }

lemma NodeAccess.ext_subtree {view view' : NodeAccess} (h : view.withoutSubtree = view'.withoutSubtree)
    (hsubtree : view.subtree = view'.subtree) : view = view' := by
  obtain ⟨⟩ := view
  obtain ⟨⟩ := view'
  simp_all [withoutSubtree]

/-- The attributes that the rules of an element see. -/
def seenAttrs (tree : DescriptorTree R) (id : NodeId) (f : Frame BytesStart LeafEvent) :
    List (String × String) := if tree.keepsAttrs id then f.label.attrs else []

/-- The text that the rules of an element see. -/
def seenText (tree : DescriptorTree R) (id : NodeId) (f : Frame BytesStart LeafEvent) : String :=
  if tree.isCapture id || tree.keepsText id then directText f.content else ""

section Views

variable {checks : OverflowChecks} {tree tree' : DescriptorTree R} {ls ls' : List Level} {l l' : Level}

variable (checks) in
lemma LevelOk.view_attrs (h : LevelOk tree l) (ls : List Level) :
    (l.view checks tree ls).forEachAttr = seenAttrs tree l.id l.frame ∧
      (l.view checks tree ls).attr = findAttr (seenAttrs tree l.id l.frame) := by
  unfold Level.view seenAttrs
  split
  case isTrue hcapture =>
    have hkeeps : tree.keepsAttrs l.id = true := by simp [DescriptorTree.keepsAttrs, hcapture]
    simp [SubtreeView.nodeAccess, dom, hkeeps]
  case isFalse => simp [StreamingViewOwned.nodeAccess, h.attrs_eq]

lemma LevelOk.view_text (h : LevelOk tree l) (ls : List Level) :
    (l.view checks tree ls).text = seenText tree l.id l.frame := by
  unfold Level.view seenText
  split
  case isTrue hcapture => simp [SubtreeView.nodeAccess, dom, hcapture]
  case isFalse hstream =>
    simp only [Bool.not_eq_true] at hstream
    simp [StreamingViewOwned.nodeAccess, h.text_eq, hstream]

lemma LevelOk.capture_children (h : LevelOk tree l) (hcapture : tree.isCapture l.id = true) :
    l.ctx.children = [] := by
  have hchildren := h.children
  rw [summarizedChildren_capture hcapture] at hchildren
  exact List.forall₂_nil_left_iff.mp hchildren

lemma LevelOk.view_children (h : LevelOk tree l) (ls : List Level) :
    (l.view checks tree ls).childrenSummaries = l.ctx.children := by
  unfold Level.view
  split
  case isTrue hcapture => exact (h.capture_children hcapture).symm
  case isFalse => rfl

lemma Level.view_elementIndex (ls : List Level) (l : Level) :
    (l.view checks tree ls).elementIndex = l.ctx.index.toNat := by
  unfold Level.view
  split <;> rfl

/-- What the parser has kept of two levels, and of the levels around them, is the same. -/
structure SameData (tree tree' : DescriptorTree R) (ls ls' : List Level) (l l' : Level) : Prop where
  attrs_eq : seenAttrs tree l.id l.frame = seenAttrs tree' l'.id l'.frame
  text_eq : seenText tree l.id l.frame = seenText tree' l'.id l'.frame
  children_eq : l.ctx.children = l'.ctx.children
  frames : SameStacks (ls.map Level.ctx) (ls'.map Level.ctx)

/-- Two views at one place show the same data exactly when they are the same up to the subtree. -/
lemma sameData_iff (hl : LevelOk tree l) (hl' : LevelOk tree' l') (hlen : ls.length = ls'.length)
    (htag : (l.view checks tree ls).tag = (l'.view checks tree' ls').tag)
    (hpath : (l.view checks tree ls).path = (l'.view checks tree' ls').path) :
    (l.view checks tree ls).withoutSubtree = (l'.view checks tree' ls').withoutSubtree ↔
      l.ctx.index = l'.ctx.index ∧ SameData tree tree' ls ls' l l' := by
  obtain ⟨hattr, htext, hchildren⟩ := Level.view_ancestors checks tree ls l
  obtain ⟨hattr', htext', hchildren'⟩ := Level.view_ancestors checks tree' ls' l'
  have hstacks : SameStacks (ls.map Level.ctx) (ls'.map Level.ctx) ↔ _ :=
    sameStacks_iff checks (by simpa using hlen)
  have hlist := hl.view_attrs checks ls
  have hlist' := hl'.view_attrs checks ls'
  simp only [NodeAccess.withoutSubtree, NodeAccess.mk.injEq, htag, hpath, hlist, hlist', hl.view_text,
    hl'.view_text, hl.view_children, hl'.view_children, Level.view_elementIndex, Level.view_depth, hlen,
    hattr, hattr', htext, htext', hchildren, hchildren', true_and, UInt32.toNat_inj]
  constructor
  · rintro ⟨-, hattrs, htexts, hindex, hsummaries, hstack⟩
    exact ⟨hindex, hattrs, htexts, hsummaries, hstacks.mpr hstack⟩
  · rintro ⟨hindex, hdata⟩
    exact ⟨by rw [hdata.attrs_eq], hdata.attrs_eq, hdata.text_eq, hindex, hdata.children_eq,
      hstacks.mp hdata.frames⟩

end Views

/-! ### The levels of two runs in step -/

section Alike

variable {tree tree' : DescriptorTree R} {ls ls' : List Level} {k k' l l' : Level}

variable [Rule R]

/-- The levels of two runs in step have the same places among their siblings. -/
lemma index_alike (hwf : tree.WellFormed) (hwf' : tree'.WellFormed) (h : OpenLevels tree (ls ++ [l]))
    (h' : OpenLevels tree' (ls' ++ [l'])) (halike : List.Forall₂ LevelAlike (ls ++ [l]) (ls' ++ [l']))
    (hchild : ∀ p tag, tree.child [p] tag = tree'.child [p] tag) :
    List.Forall₂ (fun k k' => k.ctx.index = k'.ctx.index) (ls ++ [l]) (ls' ++ [l']) := by
  have hlen := halike.length_eq
  rw [List.forall₂_iff_get] at halike ⊢
  refine ⟨hlen, fun i hi hi' => ?_⟩
  simp only [List.get_eq_getElem] at halike ⊢
  cases i with
  | zero =>
    have hroot := h.root_index _ (by rw [List.head?_eq_getElem?, List.getElem?_eq_getElem hi]; rfl)
    have hroot' := h'.root_index _ (by rw [List.head?_eq_getElem?, List.getElem?_eq_getElem hi']; rfl)
    rw [hroot, hroot']
  | succ i =>
    -- the parents are not captured, and their summarized children have the same tags
    have hls : i < ls.length := by simpa using hi
    have hls' : i < ls'.length := by simpa using hi'
    have hparent : (ls ++ [l])[i] = ls[i] := List.getElem_append_left hls
    have hparent' : (ls' ++ [l'])[i] = ls'[i] := List.getElem_append_left hls'
    have hp := halike.2 i (by omega) (by omega)
    have hlink := List.isChain_iff_getElem.mp h.linked i hi
    have hlink' := List.isChain_iff_getElem.mp h'.linked i hi'
    rw [hparent, hparent'] at hp
    rw [hparent] at hlink
    rw [hparent'] at hlink'
    have hstream := (h.outer hwf (List.getElem?_eq_getElem hls)).1
    have hstream' := (h'.outer hwf' (List.getElem?_eq_getElem hls')).1
    have htags := hp.summarizedTags_eq (fun tag => by rw [hchild, hp.id_eq]) (hstream.trans hstream'.symm)
    rw [hlink.index_eq, hlink'.index_eq, htags]
    congr 1
    exact (halike.2 (i + 1) hi hi').outline.tag_eq

/-- What two open elements show to the elements inside them is the same. -/
structure SameAncestor (tree tree' : DescriptorTree R) (id : NodeId) (f f' : Frame BytesStart LeafEvent) :
    Prop where
  attr_eq : ∀ name, findAttr f.label.attrs name = findAttr f'.label.attrs name
  text_eq : directText f.content = directText f'.content
  children_eq : (declaredChildren tree id f.content).map (retained tree) =
    (declaredChildren tree' id f'.content).map (retained tree')

omit [Rule R] in
lemma summarizedChildren_streaming {id : NodeId} (h : tree.isCapture id = false) (g : Content) :
    summarizedChildren tree id g = declaredChildren tree id g := by
  simp [summarizedChildren, h]

/-- The stack frames of two levels that have an open child answer the ancestor methods with what
the elements show. -/
lemma SameAnswers.sameAncestor (hwf : tree.WellFormed) (hwf' : tree'.WellFormed)
    (hlevels : OpenLevels tree (ls ++ [l])) (hlevels' : OpenLevels tree' (ls' ++ [l'])) {i : ℕ}
    (hk : ls[i]? = some k) (hk' : ls'[i]? = some k') (hid : k.id = k'.id)
    (h : SameAnswers k.ctx k'.ctx) : SameAncestor tree tree' k.id k.frame k'.frame := by
  obtain ⟨hstream, hattrs, htext⟩ := hlevels.outer hwf hk
  obtain ⟨hstream', hattrs', htext'⟩ := hlevels'.outer hwf' hk'
  have hok := hlevels.ok k (by simp [List.mem_of_getElem? hk])
  have hok' := hlevels'.ok k' (by simp [List.mem_of_getElem? hk'])
  have hretained := (summaries_retained hok.children).1
  have hretained' := (summaries_retained hok'.children).1
  rw [summarizedChildren_streaming hstream] at hretained
  rw [summarizedChildren_streaming hstream'] at hretained'
  constructor
  case attr_eq => simpa [hok.attrs_eq, hok'.attrs_eq, hattrs, hattrs'] using h.attr_eq
  case text_eq => simpa [hok.text_eq, hok'.text_eq, htext, htext'] using h.text_eq
  case children_eq => rw [← hretained, h.children_eq, hretained', hid]

lemma LevelAlike.sameAnswers (hwf : tree.WellFormed) (hwf' : tree'.WellFormed)
    (hlevels : OpenLevels tree (ls ++ [l])) (hlevels' : OpenLevels tree' (ls' ++ [l'])) {i : ℕ}
    (hk : ls[i]? = some k) (hk' : ls'[i]? = some k') (halike : LevelAlike k k')
    (hchild : ∀ p tag, tree.child [p] tag = tree'.child [p] tag)
    (h : SameAncestor tree tree' k.id k.frame k'.frame) : SameAnswers k.ctx k'.ctx := by
  obtain ⟨hstream, hattrs, htext⟩ := hlevels.outer hwf hk
  obtain ⟨hstream', hattrs', htext'⟩ := hlevels'.outer hwf' hk'
  have hok := hlevels.ok k (by simp [List.mem_of_getElem? hk])
  have hok' := hlevels'.ok k' (by simp [List.mem_of_getElem? hk'])
  constructor
  case attr_eq => simpa [hok.attrs_eq, hok'.attrs_eq, hattrs, hattrs'] using h.attr_eq
  case text_eq => simpa [hok.text_eq, hok'.text_eq, htext, htext'] using h.text_eq
  case children_eq =>
    refine (halike.children_eq_iff hok hok' (fun tag => by rw [hchild, halike.id_eq])
      (hstream.trans hstream'.symm)).mpr ?_
    rw [summarizedChildren_streaming hstream, summarizedChildren_streaming hstream', h.children_eq,
      halike.id_eq]

/-- The context stacks around two levels agree when the elements around them show the same. -/
lemma sameStacks_of_ancestors (hwf : tree.WellFormed) (hwf' : tree'.WellFormed)
    (hlevels : OpenLevels tree (ls ++ [l])) (hlevels' : OpenLevels tree' (ls' ++ [l']))
    (houter : List.Forall₂ LevelAlike ls ls')
    (hchild : ∀ p tag, tree.child [p] tag = tree'.child [p] tag)
    (h : ∀ level k k', level + 1 < 2 ^ 64 → level < ls.length → ls[ls.length - 1 - level]? = some k →
      ls'[ls.length - 1 - level]? = some k' → SameAncestor tree tree' k.id k.frame k'.frame) :
    SameStacks (ls.map Level.ctx) (ls'.map Level.ctx) := by
  refine ⟨by simpa using houter.length_eq, fun level ctx ctx' hfits hlevel hctx hctx' => ?_⟩
  rw [List.length_map] at hlevel
  rw [List.length_map, List.getElem?_map, Option.map_eq_some_iff] at hctx hctx'
  obtain ⟨k, hk, rfl⟩ := hctx
  obtain ⟨k', hk', rfl⟩ := hctx'
  have hpair : LevelAlike k k' := by
    obtain ⟨hi, rfl⟩ := List.getElem?_eq_some_iff.mp hk
    obtain ⟨hi', rfl⟩ := List.getElem?_eq_some_iff.mp hk'
    exact (List.forall₂_iff_get.mp houter).2 _ hi hi'
  exact hpair.sameAnswers hwf hwf' hlevels hlevels' hk hk' hchild (h level k k' hfits hlevel hk hk')

end Alike

/-! ### Tokens that close an element -/

/-- Two tokens that do the same to elements of the same tags. -/
inductive SameToken : Event → Event → Prop
  | start {tag tag' : BytesStart} (h : tag.tagName = tag'.tagName) : SameToken (.start tag) (.start tag')
  | empty {tag tag' : BytesStart} (h : tag.tagName = tag'.tagName) : SameToken (.empty tag) (.empty tag')
  | close : SameToken .close .close

section Closing

variable [Rule R] {checks : OverflowChecks} {tree tree' : DescriptorTree R} {z z' : OpenElements}
  {s s' t t' : ParserState R} {tok tok' : Event} {c : ClosingElement}

omit [Rule R] in
lemma attempt_eq_next {α : Type} {out : Output R} {r : Except Stop α} {k : α → Flow R}
    (h : Flow.attempt out r k = .next t) : ∃ a, r = .ok a ∧ k a = .next t := by
  cases r with
  | error why => cases h
  | ok a => exact ⟨a, rfl, h⟩

omit [Rule R] in
/-- The closing element whose frame is that of the innermost level. -/
lemma closing_of_spine {ls : List Level} {l : Level} (h : c.spine = (ls ++ [l]).map Level.frame) :
    c = ⟨ls.map Level.frame, l.frame.label, l.frame.content⟩ := by
  obtain ⟨above, label, content⟩ := c
  obtain ⟨rfl, hframe⟩ : above = ls.map Level.frame ∧ ⟨label, content⟩ = l.frame := by
    simpa [Closing.spine] using h
  rw [← hframe]

/-- Two tokens of one kind that close elements do so in two states in step. -/
lemma Paired.closing (hwf : tree.WellFormed) (hwf' : tree'.WellFormed) (h : Paired tree tree' z z' s s')
    (htok : SameToken tok tok') (hstep : step checks tree tok s = .next t)
    (hstep' : step checks tree' tok' s' = .next t') (hc : z.closing tok = some c)
    (hwalk : tree.walk (closingTags c) = tree'.walk (closingTags c)) :
    ∃ c' u u', z'.closing tok' = some c' ∧ Paired tree tree' c.spine c'.spine u u' ∧ u.out = s.out ∧
      u'.out = s'.out ∧ handleEnd checks tree u = .next t ∧ handleEnd checks tree' u' = .next t' := by
  cases htok with
  | start => cases hc
  | close =>
    rcases List.eq_nil_or_concat' z with rfl | ⟨w, f, rfl⟩
    · cases hc
    · obtain ⟨w', f', rfl, -, -⟩ := Lists.forall₂_concat_left h.outline
      obtain rfl := Option.some.inj ((Spine.closing_close w f).symm.trans hc)
      exact ⟨_, s, s', Spine.closing_close w' f', h, rfl, rfl, hstep, hstep'⟩
  | @empty tag tag' htag =>
    obtain rfl := Option.some.inj ((Spine.closing_empty z tag).symm.trans hc)
    obtain ⟨u, hu, hend⟩ := attempt_eq_next hstep
    obtain ⟨u', hu', hend'⟩ := attempt_eq_next hstep'
    have htags := tagsOf_eq h.outline
    have hopen : tree.walk (tagsOf z ++ [tag.tagName]) = tree'.walk (tagsOf z' ++ [tag'.tagName]) := by
      rw [← htags, ← htag]
      exact hwalk
    obtain ⟨hpaired, hout, hout'⟩ := h.start hwf hwf' hu hu' htag hopen
    exact ⟨_, u, u', Spine.closing_empty z' tag', hpaired, hout, hout', hend, hend'⟩

end Closing

end XmlOxydizer

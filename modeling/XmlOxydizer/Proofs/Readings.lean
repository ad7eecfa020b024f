import XmlOxydizer.Proofs.Buffering
import XmlOxydizer.Proofs.PairedViews

/-!
# What a document shows to the rules

The views of a run depend on the document through the tags of its elements and through what each
element with rules shows as it closes: its attributes and text as far as they are kept, what is
retained of its children, its subtree, and the elements around it. On two documents with the same
tags the rules are therefore evaluated alike exactly when the two show the same.
-/

namespace XmlOxydizer

open Markup

variable {R : Type}

/-! ### Readings -/

/-- What an open element shows to the elements inside it. -/
structure Surrounding where
  attr : String → Option String
  text : String
  children : List (List (String × String) × String)

/-- What an open element at this path shows to the elements inside it. -/
def surrounding (tree : DescriptorTree R) (path : List String) (f : Frame BytesStart LeafEvent) :
    Surrounding where
  attr := findAttr f.label.attrs
  text := directText f.content
  children := (declaredElements tree path f.content).map (retained tree)

/-- What an element shows to its rules as it closes. -/
structure Reading where
  path : List String
  attrs : List (String × String)
  text : String
  children : List (List (String × String) × String)
  subtree : Option SubtreeNode
  around : ℕ → Option Surrounding

/-- What the elements around a closing element show, by their level. -/
def around (tree : DescriptorTree R) (c : ClosingElement) (level : ℕ) : Option Surrounding :=
  -- further out than a `usize` counts, the ancestor methods find the same in all documents
  if level + 1 < 2 ^ 64 ∧ level < c.above.length then
    (ancestorFrame c level).map (surrounding tree (ancestorPath c level))
  else none

/-- What a closing element shows to the rules of node `id`. -/
def readingAt (tree : DescriptorTree R) (c : ClosingElement) (id : NodeId) : Reading where
  path := closingTags c
  attrs := seenAttrs tree id ⟨c.label, c.content⟩
  text := seenText tree id ⟨c.label, c.content⟩
  children := (summarizedChildren tree id c.content).map (retained tree)
  subtree := if tree.isCapture id then some (dom c.label c.content) else none
  around := around tree c

/-- What a closing element shows to the rules that are evaluated on it, if there are any. -/
def reading (tree : DescriptorTree R) (c : ClosingElement) : Option Reading :=
  (tree.evaluatedAt (closingTags c)).bind fun id =>
    if (tree.desc id).rules.isEmpty then none else some (readingAt tree c id)

/-- What the elements show that close before the first error. -/
def readings (tree : DescriptorTree R) (z : OpenElements) (events : List (Except XmlError Event)) :
    List Reading :=
  (z.closings (untilFault tree z events)).filterMap (reading tree)

section Readings

variable {tree : DescriptorTree R} {z : OpenElements} {tok : Event} {events : List (Except XmlError Event)}
  {c c' : ClosingElement}

@[simp] lemma readings_nil : readings tree z [] = [] := rfl

@[simp] lemma readings_error (e : XmlError) : readings tree z (.error e :: events) = [] := rfl

lemma readings_fault {e : ReaderError} (h : fault tree z tok = some e) :
    readings tree z (.ok tok :: events) = [] := by
  simp [readings, untilFault, h, Spine.closings]

lemma readings_ok (h : fault tree z tok = none) : readings tree z (.ok tok :: events) =
    ((z.closing tok).bind (reading tree)).toList ++ readings tree (z.advance tok) events := by
  simp only [readings, untilFault, h, Option.isSome_none, Bool.false_eq_true, if_false, Spine.closings,
    List.filterMap_append]
  congr 1
  cases z.closing tok with
  | none => rfl
  | some c => cases hc : reading tree c <;> simp [hc]

/-- Whether an element shows anything depends on its path. -/
lemma reading_isSome (h : closingTags c = closingTags c') :
    (reading tree c).isSome = (reading tree c').isSome := by
  unfold reading
  rw [h]
  cases tree.evaluatedAt (closingTags c') with
  | none => rfl
  | some id =>
    simp only [Option.bind_some]
    split <;> rfl

end Readings

/-! ### Readings and views -/

section Views

variable [Rule R] {checks : OverflowChecks} {tree : DescriptorTree R} {c c' : ClosingElement}
  {ls ls' : List Level} {l l' k k' : Level}

lemma Viewed.reading_eq (hwf : tree.WellFormed) (h : Viewed tree c ls l)
    (hrules : (tree.desc l.id).rules ≠ []) : reading tree c = some (readingAt tree c l.id) := by
  unfold reading
  rw [h.evaluatedAt hwf, Option.bind_some, if_neg (by simpa using hrules)]

/-- What an element around a closing element shows is what its level has kept. -/
lemma Viewed.surrounding_eq (hwf : tree.WellFormed) (h : Viewed tree c ls l) {level : ℕ}
    (hlevel : level < ls.length) (hk : ls[ls.length - 1 - level]? = some k) :
    surrounding tree (ancestorPath c level) k.frame =
      ⟨findAttr k.frame.label.attrs, directText k.frame.content,
        (declaredChildren tree k.id k.frame.content).map (retained tree)⟩ := by
  have hcontains := (h.levels_ok.ok k (by simp [List.mem_of_getElem? hk])).contains
  rw [surrounding, ← (h.ancestor_declaredAt hwf hlevel hk).1, declaredChildren_eq hwf hcontains]

omit [Rule R] in
lemma Viewed.around_eq (h : Viewed tree c ls l) {level : ℕ} (hfits : level + 1 < 2 ^ 64)
    (hlevel : level < ls.length) (hk : ls[ls.length - 1 - level]? = some k) :
    around tree c level = some (surrounding tree (ancestorPath c level) k.frame) := by
  have habove : level < c.above.length := by rwa [h.above_eq, List.length_map]
  have hframe : ancestorFrame c level = some k.frame := by simp [ancestorFrame, h.above_eq, hk]
  rw [around, if_pos ⟨hfits, habove⟩, hframe, Option.map_some]

omit [Rule R] in
lemma Viewed.around_eq_none (h : Viewed tree c ls l) {level : ℕ}
    (hout : ¬ (level + 1 < 2 ^ 64 ∧ level < ls.length)) : around tree c level = none := by
  rw [around, h.above_eq, List.length_map, if_neg hout]

/-- Elements whose rules get the same view show the same. -/
lemma Viewed.reading_congr (hwf : tree.WellFormed) (h : Viewed tree c ls l) (h' : Viewed tree c' ls' l')
    (hview : l.view checks tree ls = l'.view checks tree ls') :
    l.id = l'.id ∧ readingAt tree c l.id = readingAt tree c' l'.id := by
  have hpath : closingTags c = closingTags c' := by
    have hsegments := congrArg NodeAccess.path hview
    rw [h.path_eq hwf, h'.path_eq hwf, Except.ok.injEq] at hsegments
    exact List.map_injective_iff.mpr (fun _ _ heq => PathSegment.mk.inj heq) hsegments
  have hid : l.id = l'.id := by
    have hevaluated := h.evaluatedAt hwf
    rw [hpath, h'.evaluatedAt hwf] at hevaluated
    exact (Option.some.inj hevaluated).symm
  have hlen : ls.length = ls'.length := by
    have hdepth := congrArg NodeAccess.depth hview
    rwa [Level.view_depth, Level.view_depth] at hdepth
  have hok := h.levels_ok.last
  have hok' := h'.levels_ok.last
  obtain ⟨-, hdata⟩ := (sameData_iff hok hok' hlen (by rw [hview]) (by rw [hview])).mp (by rw [hview])
  have hframe : (⟨c.label, c.content⟩ : Frame BytesStart LeafEvent) = l.frame := by
    rw [h.label_eq, h.content_eq]
  have hframe' : (⟨c'.label, c'.content⟩ : Frame BytesStart LeafEvent) = l'.frame := by
    rw [h'.label_eq, h'.content_eq]
  refine ⟨hid, ?_⟩
  unfold readingAt
  rw [Reading.mk.injEq]
  refine ⟨hpath, ?_, ?_, ?_, ?_, ?_⟩
  · rw [hframe, hframe', hdata.attrs_eq]
  · rw [hframe, hframe', hdata.text_eq]
  · rw [h.content_eq, h'.content_eq, ← (summaries_retained hok.children).1, hdata.children_eq,
      (summaries_retained hok'.children).1]
  · have hsubtree := congrArg NodeAccess.subtree hview
    rw [Level.view_subtree, Level.view_subtree] at hsubtree
    rw [h.label_eq, h.content_eq, h'.label_eq, h'.content_eq, hsubtree]
  · funext level
    by_cases hin : level + 1 < 2 ^ 64 ∧ level < ls.length
    · obtain ⟨hfits, hlevel⟩ := hin
      obtain ⟨k, hk⟩ : ∃ k, ls[ls.length - 1 - level]? = some k := ⟨_, List.getElem?_eq_getElem (by omega)⟩
      obtain ⟨k', hk'⟩ : ∃ k', ls'[ls'.length - 1 - level]? = some k' :=
        ⟨_, List.getElem?_eq_getElem (by omega)⟩
      have hkid : k.id = k'.id := by
        have hdeclared := (h.ancestor_declaredAt hwf hlevel hk).2
        rw [ancestorPath, hpath, h.above_eq, List.length_map, hlen] at hdeclared
        have hdeclared' := (h'.ancestor_declaredAt hwf (hlen ▸ hlevel) hk').2
        rw [ancestorPath, h'.above_eq, List.length_map] at hdeclared'
        exact Option.some.inj (hdeclared.symm.trans hdeclared')
      have hanswers := hdata.frames.answers level k.ctx k'.ctx hfits (by simpa using hlevel)
        (by simp [hk]) (by simp [hlen, hk'])
      have hsame := hanswers.sameAncestor hwf hwf h.levels_ok h'.levels_ok hk (hlen ▸ hk') hkid
      rw [h.around_eq hfits hlevel hk, h'.around_eq hfits (hlen ▸ hlevel) hk',
        h.surrounding_eq hwf hlevel hk, h'.surrounding_eq hwf (hlen ▸ hlevel) hk',
        funext hsame.attr_eq, hsame.text_eq, hsame.children_eq, hkid]
    · rw [h.around_eq_none hin, h'.around_eq_none (hlen ▸ hin)]

/-- Two runs in step give elements that show the same the same view. -/
lemma Paired.view_eq {z z' : OpenElements} {s s' : ParserState R} (hwf : tree.WellFormed)
    (hpaired : Paired tree tree z z' s s') (htracks : Tracks tree (ls ++ [l]) [] s)
    (htracks' : Tracks tree (ls' ++ [l']) [] s') (hz : z = (ls ++ [l]).map Level.frame)
    (hz' : z' = (ls' ++ [l']).map Level.frame) (hc : c.spine = z) (hc' : c'.spine = z')
    (hreading : readingAt tree c l.id = readingAt tree c' l'.id) :
    l.view checks tree ls = l'.view checks tree ls' := by
  obtain rfl := closing_of_spine (hc.trans hz)
  obtain rfl := closing_of_spine (hc'.trans hz')
  have hviewed := htracks.viewed
  have hviewed' := htracks'.viewed
  have halike := hpaired.alike htracks htracks' hz hz'
  have hindex := index_alike hwf hwf htracks.levels_ok htracks'.levels_ok halike (fun _ _ => rfl)
  obtain ⟨houter, hlast⟩ := Lists.forall₂_concat_iff.mp halike
  have hl := htracks.levels_ok.last
  have hl' := htracks'.levels_ok.last
  unfold readingAt at hreading
  rw [Reading.mk.injEq] at hreading
  obtain ⟨hpath, hattrs, htext, hchildren, hsubtree, haround⟩ := hreading
  have hlen : ls.length = ls'.length := houter.length_eq
  have hdata : SameData tree tree ls ls' l l' := by
    refine ⟨hattrs, htext, ?_, ?_⟩
    · have hkept := hlast.children_eq_iff hl hl' (fun tag => by rw [hlast.id_eq]) (by rw [hlast.id_eq])
      exact hkept.mpr hchildren
    · refine sameStacks_of_ancestors hwf hwf htracks.levels_ok htracks'.levels_ok houter (fun _ _ => rfl)
        fun level k k' hfits hlevel hk hk' => ?_
      rw [hlen] at hk'
      have hlevels := congrFun haround level
      rw [hviewed.around_eq hfits hlevel hk, hviewed'.around_eq hfits (hlen ▸ hlevel) hk',
        hviewed.surrounding_eq hwf hlevel hk, hviewed'.surrounding_eq hwf (hlen ▸ hlevel) hk',
        Option.some.injEq, Surrounding.mk.injEq] at hlevels
      have hkid : k.id = k'.id := by
        obtain ⟨hi, rfl⟩ := List.getElem?_eq_some_iff.mp hk
        obtain ⟨hi', rfl⟩ := List.getElem?_eq_some_iff.mp hk'
        simpa [hlen] using ((List.forall₂_iff_get.mp houter).2 _ hi (by omega)).id_eq
      obtain ⟨hattr, htexts, hsummaries⟩ := hlevels
      exact ⟨congrFun hattr, htexts, by rw [hsummaries, hkid]⟩
  have htag : l.frame.label.tagName = l'.frame.label.tagName := hlast.outline.tag_eq
  have hwithout : (l.view checks tree ls).withoutSubtree = (l'.view checks tree ls').withoutSubtree := by
    refine (sameData_iff hl hl' hlen ?_ ?_).mpr ⟨(Lists.forall₂_concat_iff.mp hindex).2, hdata⟩
    · rw [hviewed.tag_eq hwf, hviewed'.tag_eq hwf, htag]
    · rw [hviewed.path_eq hwf, hviewed'.path_eq hwf, hpath]
  refine NodeAccess.ext_subtree hwithout ?_
  rw [Level.view_subtree, Level.view_subtree, hsubtree]

end Views

/-! ### The evaluations of a run -/

/-- The evaluations that rules make on elements with these readings, in order. -/
inductive Observed [Rule R] (checks : OverflowChecks) (tree : DescriptorTree R) :
    List Reading → List (Evaluation R) → Prop
  | nil : Observed checks tree [] []
  | cons {c : ClosingElement} {ls : List Level} {l : Level} {shown : List Reading}
      {evals : List (Evaluation R)} (hviewed : Viewed tree c ls l) (hrules : (tree.desc l.id).rules ≠ [])
      (rest : Observed checks tree shown evals) :
      Observed checks tree (readingAt tree c l.id :: shown)
        (evaluationsOn (l.view checks tree ls) (tree.desc l.id).rules ++ evals)

section Observed

variable [Rule R] {checks : OverflowChecks} {tree : DescriptorTree R} {shown shown' : List Reading}
  {evals evals' : List (Evaluation R)} {c : ClosingElement} {z : OpenElements} {s t : ParserState R}
  {tok : Event} {events : List (Except XmlError Event)}

lemma Observed.append (h : Observed checks tree shown evals) (h' : Observed checks tree shown' evals') :
    Observed checks tree (shown ++ shown') (evals ++ evals') := by
  induction h with
  | nil => exact h'
  | cons hviewed hrules _ ih =>
    rw [List.cons_append, List.append_assoc]
    exact .cons hviewed hrules ih

lemma Observed.eq_nil (h : Observed checks tree [] evals) : evals = [] := by
  cases h
  rfl

/-- Equal evaluations are made on elements that show the same. -/
lemma Observed.readings_eq (hwf : tree.WellFormed) (h : Observed checks tree shown evals)
    (h' : Observed checks tree shown' evals) : shown = shown' := by
  induction h generalizing shown' with
  | nil =>
    generalize hnil : ([] : List (Evaluation R)) = evals at h'
    cases h' with
    | nil => rfl
    | cons hviewed hrules rest =>
      have hempty := (List.append_eq_nil_iff.mp hnil.symm).1
      exact absurd (List.map_eq_nil_iff.mp hempty) hrules
  | @cons c ls l shown evals hviewed hrules rest ih =>
    generalize hall : evaluationsOn (l.view checks tree ls) (tree.desc l.id).rules ++ evals = all at h'
    cases h' with
    | nil =>
      have hempty := (List.append_eq_nil_iff.mp hall).1
      exact absurd (List.map_eq_nil_iff.mp hempty) hrules
    | @cons c' ls' l' shown' evals' hviewed' hrules' rest' =>
      -- the first evaluations of both lists are of one rule on one view
      have hview : l.view checks tree ls = l'.view checks tree ls' := by
        have hhead := congrArg List.head? hall
        obtain ⟨rule, rules, hcons⟩ := List.exists_cons_of_ne_nil hrules
        obtain ⟨rule', rules', hcons'⟩ := List.exists_cons_of_ne_nil hrules'
        rw [hcons, hcons'] at hhead
        exact congrArg Evaluation.view (Option.some.inj hhead)
      obtain ⟨hid, hreading⟩ := hviewed.reading_congr hwf hviewed' hview
      rw [hview, hid] at hall
      obtain rfl := List.append_cancel_left hall
      rw [hreading, ih rest']

lemma Evaluates.observed (hwf : tree.WellFormed) (h : Evaluates checks tree c evals) :
    Observed checks tree (reading tree c).toList evals := by
  cases h with
  | undeclared hnone =>
    rw [reading, hnone]
    exact .nil
  | declared ls l hviewed =>
    by_cases hrules : (tree.desc l.id).rules = []
    · rw [reading, hviewed.evaluatedAt hwf, Option.bind_some, if_pos (by simpa using hrules), hrules]
      exact .nil
    · rw [hviewed.reading_eq hwf hrules, Option.toList_some, ← List.append_nil (evaluationsOn _ _)]
      exact .cons hviewed hrules .nil

variable (checks) in
/-- A run evaluates the rules on what the document shows until the first error. -/
lemma run_observed (hwf : tree.WellFormed) (h : Follows tree z s) (events : List (Except XmlError Event))
    (hreturns : (eventLoop checks tree events s).Returns) :
    ∃ evals, (eventLoop checks tree events s).out.evaluated = s.out.evaluated ++ evals ∧
      Observed checks tree (readings tree z events) evals := by
  induction events generalizing z s with
  | nil => exact ⟨[], by simp [eventLoop, Flow.out], .nil⟩
  | cons event events ih =>
    cases event with
    | error e => exact ⟨[], by simp [eventLoop, Flow.out], .nil⟩
    | ok tok =>
      rcases loop_head hwf h hreturns with ⟨e, hfault, hout⟩ | ⟨t, hstep, hfault, hloop⟩
      · rw [hout, readings_fault hfault]
        exact ⟨[], by simp, .nil⟩
      · have hok := step_ok checks hwf h tok
        rw [hstep] at hok
        rw [hloop] at hreturns ⊢
        cases hok with
        | next _ groups hfollows hgroups hout =>
          obtain ⟨evals, hevals, hobserved⟩ := ih hfollows hreturns
          refine ⟨groups.flatten ++ evals, ?_, ?_⟩
          · rw [hevals, hout, Output.evaluated_record, List.append_assoc]
          · rw [readings_ok hfault]
            apply Observed.append _ hobserved
            cases hc : z.closing tok with
            | none =>
              rw [hc] at hgroups
              cases hgroups
              exact .nil
            | some c =>
              rw [hc] at hgroups
              cases hgroups with
              | cons hfirst hnil =>
                cases hnil
                rw [List.flatten_singleton]
                exact hfirst.observed hwf

end Observed

/-! ### Documents with the same tags -/

/-- Two documents with the same tags, up to the first event that is an error. -/
inductive SameMarkup : List (Except XmlError Event) → List (Except XmlError Event) → Prop
  | nil : SameMarkup [] []
  | broken (e e' : XmlError) (events events' : List (Except XmlError Event)) :
      SameMarkup (.error e :: events) (.error e' :: events')
  | token {tok tok' : Event} {events events' : List (Except XmlError Event)} (h : SameToken tok tok')
      (rest : SameMarkup events events') : SameMarkup (.ok tok :: events) (.ok tok' :: events')
  | leaf_left {leaf : LeafEvent} {events events' : List (Except XmlError Event)}
      (rest : SameMarkup events events') : SameMarkup (.ok (.leaf leaf) :: events) events'
  | leaf_right {leaf : LeafEvent} {events events' : List (Except XmlError Event)}
      (rest : SameMarkup events events') : SameMarkup events (.ok (.leaf leaf) :: events')

section Markup

variable [Rule R] {checks : OverflowChecks} {tree : DescriptorTree R} {z z' : OpenElements}
  {s s' t t' : ParserState R} {tok tok' : Event} {events events' : List (Except XmlError Event)}
  {c c' : ClosingElement}

/-- Two runs have made the same evaluations from two states on. -/
def SameEvaluated (s s' : ParserState R) (out out' : Output R) : Prop :=
  ∃ evals, out.evaluated = s.out.evaluated ++ evals ∧ out'.evaluated = s'.out.evaluated ++ evals

omit [Rule R] in
lemma SameEvaluated.trans {out out' : Output R} (h : SameEvaluated s s' t.out t'.out)
    (h' : SameEvaluated t t' out out') : SameEvaluated s s' out out' := by
  obtain ⟨evals, hout, hout'⟩ := h
  obtain ⟨more, hmore, hmore'⟩ := h'
  refine ⟨evals ++ more, ?_, ?_⟩
  · rw [hmore, hout, List.append_assoc]
  · rw [hmore', hout', List.append_assoc]

omit [Rule R] in
lemma SameEvaluated.of_out (hout : t.out = s.out) (hout' : t'.out = s'.out) :
    SameEvaluated s s' t.out t'.out :=
  ⟨[], by rw [hout, List.append_nil], by rw [hout', List.append_nil]⟩

/-- Two elements that show the same close in both runs. -/
lemma Paired.end_evaluated (hwf : tree.WellFormed) (h : Paired tree tree z z' s s') (hc : c.spine = z)
    (hc' : c'.spine = z') (hend : handleEnd checks tree s = .next t)
    (hend' : handleEnd checks tree s' = .next t') (hreading : reading tree c = reading tree c') :
    Paired tree tree (z.advance .close) (z'.advance .close) t t' ∧ SameEvaluated s s' t.out t'.out := by
  have hsame : ∀ ls l ls' l', Tracks tree (ls ++ [l]) [] s → Tracks tree (ls' ++ [l']) [] s' →
      z = (ls ++ [l]).map Level.frame → z' = (ls' ++ [l']).map Level.frame →
      (tree.desc l.id).rules = (tree.desc l'.id).rules ∧
        ((tree.desc l.id).rules = [] ∨ l.view checks tree ls = l'.view checks tree ls') := by
    intro ls l ls' l' htracks htracks' hz hz'
    have halike := h.alike htracks htracks' hz hz'
    have hid : l.id = l'.id := (Lists.forall₂_concat_iff.mp halike).2.id_eq
    refine ⟨by rw [hid], ?_⟩
    by_cases hrules : (tree.desc l.id).rules = []
    · exact .inl hrules
    · refine .inr (h.view_eq hwf htracks htracks' hz hz' hc hc' ?_)
      have hviewed : Viewed tree c ls l := closing_of_spine (hc.trans hz) ▸ htracks.viewed
      have hviewed' : Viewed tree c' ls' l' := closing_of_spine (hc'.trans hz') ▸ htracks'.viewed
      rw [hviewed.reading_eq hwf hrules, hviewed'.reading_eq hwf (hid ▸ hrules)] at hreading
      exact Option.some.inj hreading
  constructor
  · refine h.close hend hend' fun ls l ls' l' htracks htracks' hz hz' => ?_
    obtain ⟨hrules, hnone | hview⟩ := hsame ls l ls' l' htracks htracks' hz hz'
    · rw [← hrules, hnone]
      rfl
    · rw [hview, hrules]
  · cases h.effect hend hend' with
    | other hbelow hout hout' hstack hstack' => exact .of_out hout hout'
    | level ls ls' l l' r r' htracks htracks' hz hz' hout hout' =>
      refine ⟨evaluationsOn (l.view checks tree ls) (tree.desc l.id).rules, ?_, ?_⟩
      · rw [hout, Output.evaluated_record]
      · obtain ⟨hrules, hnone | hview⟩ := hsame ls l ls' l' htracks htracks' hz hz'
        · rw [hout', Output.evaluated_record, ← hrules, hnone]
          rfl
        · rw [hout', Output.evaluated_record, ← hrules, hview]

/-- Two tokens close elements at one path. -/
lemma Paired.closing_evaluated (hwf : tree.WellFormed) (h : Paired tree tree z z' s s')
    (htok : SameToken tok tok') (hstep : step checks tree tok s = .next t)
    (hstep' : step checks tree tok' s' = .next t') (hc : z.closing tok = some c) {shown shown' : List Reading}
    (hreadings : ((z.closing tok).bind (reading tree)).toList ++ shown =
      ((z'.closing tok').bind (reading tree)).toList ++ shown') :
    Paired tree tree (z.advance tok) (z'.advance tok') t t' ∧ SameEvaluated s s' t.out t'.out ∧
      shown = shown' := by
  obtain ⟨c', u, u', hc', hpaired, hout, hout', hend, hend'⟩ :=
    h.closing hwf hwf htok hstep hstep' hc rfl
  have htags : closingTags c = closingTags c' := by
    simpa [closingTags, Closing.spine] using tagsOf_eq hpaired.outline
  have hsome : (reading tree c).isSome = (reading tree c').isSome := reading_isSome htags
  rw [hc, hc', Option.bind_some, Option.bind_some] at hreadings
  obtain ⟨hreading, hshown⟩ : reading tree c = reading tree c' ∧ shown = shown' := by
    cases hr : reading tree c <;> cases hr' : reading tree c' <;> simp_all
  obtain ⟨hnext, hevaluated⟩ := hpaired.end_evaluated hwf rfl rfl hend hend' hreading
  rw [Spine.advance_of_closing hc, Spine.advance_of_closing hc']
  exact ⟨hnext, (SameEvaluated.of_out hout hout').trans hevaluated, hshown⟩

/-- A run on a document that shows nothing evaluates nothing. -/
lemma evaluated_of_readings_nil (hwf : tree.WellFormed) (h : Follows tree z s)
    (hreturns : (eventLoop checks tree events s).Returns) (hnil : readings tree z events = []) :
    (eventLoop checks tree events s).out.evaluated = s.out.evaluated := by
  obtain ⟨evals, hevals, hobserved⟩ := run_observed checks hwf h events hreturns
  rw [hnil] at hobserved
  rw [hevals, hobserved.eq_nil, List.append_nil]

/-- A token before an element that shows something is no fault. -/
lemma loop_next (hwf : tree.WellFormed) (h : Follows tree z s)
    (hreturns : (eventLoop checks tree (.ok tok :: events) s).Returns)
    (hne : readings tree z (.ok tok :: events) ≠ []) :
    ∃ t, step checks tree tok s = .next t ∧
      eventLoop checks tree (.ok tok :: events) s = eventLoop checks tree events t ∧
      readings tree z (.ok tok :: events) =
        ((z.closing tok).bind (reading tree)).toList ++ readings tree (z.advance tok) events := by
  rcases loop_head hwf h hreturns with ⟨e, hfault, -⟩ | ⟨t, hstep, hfault, hloop⟩
  · exact absurd (readings_fault hfault) hne
  · exact ⟨t, hstep, hloop, readings_ok hfault⟩

/-- One token of each document, of the same tag. -/
lemma Paired.token_evaluated (hwf : tree.WellFormed) (h : Paired tree tree z z' s s')
    (htok : SameToken tok tok') (hstep : step checks tree tok s = .next t)
    (hstep' : step checks tree tok' s' = .next t') {shown shown' : List Reading}
    (hreadings : ((z.closing tok).bind (reading tree)).toList ++ shown =
      ((z'.closing tok').bind (reading tree)).toList ++ shown') :
    Paired tree tree (z.advance tok) (z'.advance tok') t t' ∧ SameEvaluated s s' t.out t'.out ∧
      shown = shown' := by
  cases hc : z.closing tok with
  | some c => exact h.closing_evaluated hwf htok hstep hstep' hc hreadings
  | none =>
    cases htok with
    | empty => simp at hc
    | @start tag tag' htag =>
      obtain ⟨u, hu, hnext⟩ := attempt_eq_next hstep
      obtain ⟨u', hu', hnext'⟩ := attempt_eq_next hstep'
      obtain rfl := Flow.next.inj hnext
      obtain rfl := Flow.next.inj hnext'
      have hwalk : tree.walk (tagsOf z ++ [tag.tagName]) = tree.walk (tagsOf z' ++ [tag'.tagName]) := by
        rw [tagsOf_eq h.outline, htag]
      obtain ⟨hpaired, hout, hout'⟩ := h.start hwf hwf hu hu' htag hwalk
      exact ⟨by simpa using hpaired, .of_out hout hout', hreadings⟩
    | close =>
      -- the end of no element
      rcases List.eq_nil_or_concat' z with rfl | ⟨w, f, rfl⟩
      · obtain rfl := List.forall₂_nil_left_iff.mp h.outline
        refine ⟨h.close hstep hstep' fun ls l ls' l' _ _ hz _ => by simp at hz, ?_, hreadings⟩
        cases h.effect hstep hstep' with
        | other hbelow hout hout' hstack hstack' => exact .of_out hout hout'
        | level ls ls' l l' r r' htracks htracks' hz => simp at hz
      · simp at hc

/-- Two runs on documents that show nothing. -/
lemma SameEvaluated.of_readings_nil (hwf : tree.WellFormed) (hpaired : Paired tree tree z z' s s')
    (hreturns : (eventLoop checks tree events s).Returns)
    (hreturns' : (eventLoop checks tree events' s').Returns) (hreadings : readings tree z events = readings tree z' events')
    (hnil : readings tree z events = []) :
    SameEvaluated s s' (eventLoop checks tree events s).out (eventLoop checks tree events' s').out := by
  have hevaluated := evaluated_of_readings_nil hwf hpaired.left hreturns hnil
  have hevaluated' := evaluated_of_readings_nil hwf hpaired.right hreturns' (hreadings ▸ hnil)
  exact ⟨[], by rw [hevaluated, List.append_nil], by rw [hevaluated', List.append_nil]⟩

/-- Two documents with the same tags are evaluated alike when they show the same. -/
theorem SameMarkup.same_evaluated (hwf : tree.WellFormed) (h : SameMarkup events events')
    (hpaired : Paired tree tree z z' s s') (hreturns : (eventLoop checks tree events s).Returns)
    (hreturns' : (eventLoop checks tree events' s').Returns)
    (hreadings : readings tree z events = readings tree z' events') :
    SameEvaluated s s' (eventLoop checks tree events s).out (eventLoop checks tree events' s').out := by
  induction h generalizing z z' s s' with
  | nil => exact .of_readings_nil hwf hpaired hreturns hreturns' hreadings rfl
  | broken => exact .of_readings_nil hwf hpaired hreturns hreturns' hreadings rfl
  | @token tok tok' events events' htok _ ih =>
    by_cases hnil : readings tree z (.ok tok :: events) = []
    · exact .of_readings_nil hwf hpaired hreturns hreturns' hreadings hnil
    obtain ⟨t, hstep, hloop, hhead⟩ := loop_next hwf hpaired.left hreturns hnil
    obtain ⟨t', hstep', hloop', hhead'⟩ := loop_next hwf hpaired.right hreturns' (hreadings ▸ hnil)
    rw [hhead, hhead'] at hreadings
    rw [hloop] at hreturns ⊢
    rw [hloop'] at hreturns' ⊢
    obtain ⟨hnext, hevaluated, hrest⟩ := hpaired.token_evaluated hwf htok hstep hstep' hreadings
    exact hevaluated.trans (ih hnext hreturns hreturns' hrest)
  | @leaf_left leaf events events' _ ih =>
    by_cases hnil : readings tree z (.ok (.leaf leaf) :: events) = []
    · exact .of_readings_nil hwf hpaired hreturns hreturns' hreadings hnil
    obtain ⟨t, hstep, hloop, hhead⟩ := loop_next hwf hpaired.left hreturns hnil
    obtain ⟨hnext, hout⟩ := hpaired.leaf_left hstep
    rw [hhead, Spine.advance_leaf] at hreadings
    rw [hloop] at hreturns ⊢
    exact (SameEvaluated.of_out hout rfl).trans (ih hnext hreturns hreturns' hreadings)
  | @leaf_right leaf events events' _ ih =>
    by_cases hnil : readings tree z events = []
    · exact .of_readings_nil hwf hpaired hreturns hreturns' hreadings hnil
    obtain ⟨t, hstep, hloop, hhead⟩ := loop_next hwf hpaired.right hreturns' (hreadings ▸ hnil)
    obtain ⟨hnext, hout⟩ := hpaired.leaf_right hstep
    rw [hhead, Spine.advance_leaf] at hreadings
    rw [hloop] at hreturns' ⊢
    exact (SameEvaluated.of_out rfl hout).trans (ih hnext hreturns hreturns' hreadings)

/-- Two documents with the same tags are given the same evaluations exactly when they show the same. -/
theorem SameMarkup.evaluated_iff (hwf : tree.WellFormed) (h : SameMarkup events events')
    (hreturns : (eventLoop checks tree events .init).Returns)
    (hreturns' : (eventLoop checks tree events' .init).Returns) :
    (eventLoop checks tree events .init).out.evaluated = (eventLoop checks tree events' .init).out.evaluated ↔
      readings tree [] events = readings tree [] events' := by
  constructor
  · intro heq
    obtain ⟨evals, hevals, hobserved⟩ := run_observed checks hwf (follows_init tree) events hreturns
    obtain ⟨evals', hevals', hobserved'⟩ := run_observed checks hwf (follows_init tree) events' hreturns'
    rw [hevals, hevals', List.append_cancel_left_eq] at heq
    exact hobserved.readings_eq hwf (heq ▸ hobserved')
  · intro hreadings
    obtain ⟨evals, hevals, hevals'⟩ :=
      h.same_evaluated hwf (paired_init tree tree) hreturns hreturns' hreadings
    rw [hevals, hevals']

end Markup

end XmlOxydizer

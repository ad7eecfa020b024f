import XmlOxydizer.Proofs.Documents
import XmlOxydizer.Tree.Builder

/-!
# The evaluation trace

The rule evaluations of a parse are those of a traversal of the document: the elements in
the order in which they close, each with the rules of the node that is declared at its
path, unless a capture node lies above it.
-/

namespace XmlOxydizer

open Markup

variable {R : Type}

/-- An evaluation as its rule sees it from where it stands. -/
structure RuleCall (R : Type) where
  rule : R
  path : Except Panic (List PathSegment)
  tag : Except Panic String
  depth : ℕ

def Evaluation.call (e : Evaluation R) : RuleCall R := ⟨e.rule, e.view.path, e.view.tag, e.view.depth⟩

/-- The calls that an element at this path is owed. -/
def owedCalls (tree : DescriptorTree R) (path : List String) : List (RuleCall R) :=
  match tree.evaluatedAt path with
  | none => []
  | some id => (tree.desc id).rules.map fun rule =>
      { rule, path := .ok (path.map PathSegment.mk), tag := .ok (path.getLastD ""),
        depth := path.length - 1 }

/-- The tag paths of the elements of a document, in the order in which they close. -/
def closingPaths (document : Content) : List (List String) :=
  (document.postorder []).map (List.map BytesStart.tagName)

/-- The calls of the reference traversal of a document. -/
def referenceCalls (tree : DescriptorTree R) (document : Content) : List (RuleCall R) :=
  (closingPaths document).flatMap (owedCalls tree)

section View

variable [Rule R] {checks : OverflowChecks} {tree : DescriptorTree R} {c : ClosingElement}
  {ls : List Level} {l : Level}

lemma DescriptorTree.WellFormed.of_evaluatedAt (hwf : tree.WellFormed) {path : List String}
    {id : NodeId} (h : tree.evaluatedAt path = some id) :
    tree.Contains id ∧ (tree.desc id).tags = path ∧ tree.belowCapture path = false := by
  simp only [DescriptorTree.evaluatedAt] at h
  split at h
  case isTrue => cases h
  case isFalse habove =>
    obtain ⟨hid, htags⟩ := hwf.declaredAt_eq_some.mp h
    exact ⟨hid, htags, by simpa using habove⟩

omit [Rule R] in
lemma Viewed.contains (h : Viewed tree c ls l) : tree.Contains l.id := h.levels_ok.last.contains

lemma Viewed.tags (hwf : tree.WellFormed) (h : Viewed tree c ls l) :
    (tree.desc l.id).tags = closingTags c :=
  (hwf.of_evaluatedAt (h.evaluatedAt hwf)).2.1

omit [Rule R] in
lemma fullPath_eq_tags (node : DescriptorNode R) : node.fullPath = node.tags.map PathSegment.mk := by
  simp [DescriptorNode.tags, Function.comp_def]

lemma Viewed.path_eq (hwf : tree.WellFormed) (h : Viewed tree c ls l) :
    (l.view checks tree ls).path = .ok ((closingTags c).map PathSegment.mk) := by
  have hpath : (tree.desc l.id).fullPath = (closingTags c).map PathSegment.mk := by
    rw [fullPath_eq_tags, h.tags hwf]
  have hget := DescriptorTree.get_eq h.contains
  unfold Level.view
  split
  · simp only [SubtreeView.nodeAccess, hget, ok_map, hpath]
  · simp only [StreamingViewOwned.nodeAccess, h.levels_ok.last.descriptorId_eq, hget, ok_map, hpath]

omit [Rule R] in
lemma closingTags_getLastD (c : ClosingElement) : (closingTags c).getLastD "" = c.label.tagName := by
  simp [closingTags, List.getLastD_eq_getLast?]

lemma Viewed.tag_eq (hwf : tree.WellFormed) (h : Viewed tree c ls l) :
    (l.view checks tree ls).tag = .ok c.label.tagName := by
  have hlast := closingTags_getLastD c
  rw [← h.tags hwf] at hlast
  have htag : (tree.desc l.id).tag.str = c.label.tagName := by
    rcases hwf.root_or_child h.contains with hroot | ⟨p, -, hchild⟩
    · rw [← hlast, hroot, hwf.tags_root]
      rfl
    · rw [← hlast, hwf.tags_child hchild]
      simp [List.getLastD_eq_getLast?]
  have hget := DescriptorTree.get_eq h.contains
  unfold Level.view
  split
  · simp only [SubtreeView.nodeAccess, dom, h.label_eq]
  · simp only [StreamingViewOwned.nodeAccess, h.levels_ok.last.descriptorId_eq, hget, ok_map, htag]

omit [Rule R] in
lemma Level.view_depth (ls : List Level) (l : Level) : (l.view checks tree ls).depth = ls.length := by
  unfold Level.view
  split <;> simp [SubtreeView.nodeAccess, StreamingViewOwned.nodeAccess]

omit [Rule R] in
lemma Viewed.depth_eq (h : Viewed tree c ls l) :
    (l.view checks tree ls).depth = (closingTags c).length - 1 := by
  simp [Level.view_depth, closingTags, h.above_eq]

/-- An element is given the calls that it is owed. -/
lemma Evaluates.calls_eq (hwf : tree.WellFormed) {evals : List (Evaluation R)}
    (h : Evaluates checks tree c evals) : evals.map Evaluation.call = owedCalls tree (closingTags c) := by
  cases h with
  | undeclared hnone => simp [owedCalls, hnone]
  | declared ls l h =>
    simp only [owedCalls, h.evaluatedAt hwf, evaluationsOn, List.map_map]
    refine List.map_congr_left fun rule _ => ?_
    simp only [Function.comp_apply, Evaluation.call, h.path_eq hwf, h.tag_eq hwf, h.depth_eq,
      closingTags_getLastD]

lemma calls_of_groups (hwf : tree.WellFormed) {cs : List ClosingElement}
    {groups : List (List (Evaluation R))} (h : List.Forall₂ (Evaluates checks tree) cs groups) :
    groups.flatten.map Evaluation.call = cs.flatMap (fun c => owedCalls tree (closingTags c)) := by
  induction h with
  | nil => rfl
  | cons hc _ ih => rw [List.flatten_cons, List.map_append, ih, hc.calls_eq hwf, List.flatMap_cons]

end View

/-- The closing elements of a written document have the paths of its postorder. -/
lemma closingTags_writes {document : Content} {ts : List Event} (hdoc : Writes document ts) :
    (Spine.closings [] ts).map closingTags = closingPaths document := by
  have hpaths := Spine.closings_writes hdoc []
  rw [List.map_nil] at hpaths
  rw [closingPaths, ← hpaths, List.map_map]
  refine List.map_congr_left fun c _ => ?_
  simp [closingTags, tagsOf, Closing.path]

section

variable [Rule R]

/-- A document without faults is parsed to `Ok`. -/
lemma parseFile_finished {tree : DescriptorTree R} (checks : OverflowChecks) (hwf : tree.WellFormed)
    {document : Content} {ts : List Event} (hdoc : Writes document ts)
    (hrules : ∀ node ∈ tree.nodes, node.rules.length ≤ 64) (hfew : FewChildren document)
    (hread : Readable document) (hfit : CapturesFit tree [] document) :
    (parseFile checks tree (ts.map .ok)).result = .ok () := by
  have hfault : firstFault tree [] (ts.map .ok) = none :=
    firstFault_writes hwf hdoc [] hread hfit (by simp [HasRoom, DescriptorTree.openCapture])
  have hcounters : CountersFit [] ts := countersFit_writes hdoc [] hfew (by simp [HasChildRoom])
  have hparse := parseFile_ok checks hwf (ts.map .ok)
  generalize parseFile checks tree (ts.map .ok) = o at hparse ⊢
  cases hparse with
  | finished => rfl
  | failed e pre bad rest groups out hevents hgroups hout hbuffered hbad hfault' =>
    rw [hfault] at hfault'
    cases hfault'
  | panicked p pre tok rest out hevents hbuffered hchecked hcause =>
    obtain ⟨us, vs, rfl, hus, hvs⟩ := List.map_eq_append_iff.mp hevents
    obtain ⟨tok', vs', rfl, htok, -⟩ := List.map_eq_cons_iff.mp hvs
    obtain rfl : us = pre := List.map_injective_iff.mpr (fun _ _ h => Except.ok.inj h) hus
    obtain rfl := Except.ok.inj htok
    exact absurd hcause (no_overflow hcounters hrules)

/-- A document without faults is parsed to `Ok`, its rule evaluations are those of the
reference traversal, and the diagnostics they return are sent in their order. -/
theorem parseFile_trace (t : BuiltTree R) (checks : OverflowChecks) (document : Content)
    (ts : List Event) (hdoc : Writes document ts)
    (hrules : ∀ node ∈ t.tree.nodes, node.rules.length ≤ 64) (hfew : FewChildren document)
    (hread : Readable document) (hfit : CapturesFit t.tree [] document) :
    let o := parseFile checks t.tree (ts.map .ok)
    o.result = .ok () ∧
      o.out.evaluated.map Evaluation.call = referenceCalls t.tree document ∧
      o.out.sent = o.out.evaluated.flatMap Evaluation.diagnostics := by
  have hok := parseFile_finished checks t.wellFormed hdoc hrules hfew hread hfit
  have hparse := parseFile_ok checks t.wellFormed (ts.map .ok)
  dsimp only
  generalize parseFile checks t.tree (ts.map .ok) = o at hok hparse ⊢
  refine ⟨hok, ?_⟩
  cases hparse with
  | failed => cases hok
  | panicked => cases hok
  | finished ts' s groups hevents hrun hfollows hgroups hout hbuffered hfault =>
    obtain rfl : ts = ts' := List.map_injective_iff.mpr (fun _ _ h => Except.ok.inj h) hevents
    refine ⟨?_, hbuffered.sent_flush⟩
    have hcalls := calls_of_groups t.wellFormed hgroups
    rw [referenceCalls, ← closingTags_writes hdoc, List.flatMap_map]
    simpa [flushDiagnostics, hout] using hcalls

end

/-! ### A sample -/

/-- A rule that asks for some data, and reports or passes. -/
structure Probe where
  needs : NodeNeeds
  reports : Bool

instance : Rule Probe where
  name _ := "probe"
  needs := Probe.needs
  evaluate rule view :=
    if rule.reports then [⟨"probe", view.text, view.path.toOption.getD [], 0, .error⟩] else []

/-- A tag with these attributes. -/
def tagNamed (name : String) (attrs : List (String × String)) : BytesStart :=
  ⟨name.toUTF8, attrs.map (fun (k, v) => .ok ⟨k.toUTF8, v.toUTF8⟩)⟩

def textNamed (chars : String) : LeafEvent := .text ⟨chars.toUTF8⟩

/-- A list with streaming items and captured boxes. -/
def sampleTree : BuiltTree Probe :=
  (BuiltTree.ofCalls? "list" [.rule ⟨.all, true⟩, .node "item", .rule ⟨.all, true⟩, .done,
    .node "box", .captureSubtree, .rule ⟨⟨0x0f⟩, false⟩, .done]).get (by decide +kernel)

def sampleDocument : Content :=
  .element (tagNamed "list" [("id", "7")])
    (.leaf (textNamed "a") (.element (tagNamed "item" []) (.leaf (textNamed "b") .nil)
      (.element (tagNamed "box" []) (.element (tagNamed "item" []) .nil .nil)
        (.element (tagNamed "note" []) (.leaf (textNamed "c") .nil) .nil)))) .nil

theorem parseFile_trace_sample :
    let o := parseFile .checked sampleTree.tree (sampleDocument.tokens.map .ok)
    o.result = .ok () ∧
      o.out.evaluated.map Evaluation.call = referenceCalls sampleTree.tree sampleDocument ∧
      o.out.sent = o.out.evaluated.flatMap Evaluation.diagnostics :=
  parseFile_trace sampleTree .checked sampleDocument sampleDocument.tokens (writes_tokens _)
    (by decide +kernel) (by decide +kernel) (by decide +kernel) (by decide +kernel)

end XmlOxydizer

import XmlOxydizer.Proofs.SchemaTerms
import XmlOxydizer.Proofs.Verdicts

/-!
# The meaning of a schema term

A schema term can be read against a document without a tree, a parser or paths: an element matches the node
with its tag among the child nodes of the node that the element around it matches. What `build_tree!` and the
parser do together is to make the calls of this reading.
-/

namespace XmlOxydizer

open Markup

variable {R : Type}

/-- The tag of an element as a segment of its path. -/
def BytesStart.segment (tag : BytesStart) : PathSegment := ⟨tag.tagName⟩

/-- The calls of the rules of a node on an element at this path. -/
def nodeCalls (value : RuleLiteral → R) (path : List PathSegment) (head : NodeHead) (content : SchemaBody) :
    List (RuleCall R) :=
  content.leaves.map fun rule =>
    { rule := value rule, path := .ok path, tag := .ok head.tag, depth := path.length - 1 }

/-- The calls that a schema term stands for on a document. The elements of the document are matched with the
nodes of the term from the root on; an element is given the rules of its node when it closes, and inside a
capture nothing is matched. -/
def Schema.calls (value : RuleLiteral → R) (s : Schema) (document : Content) : List (RuleCall R) :=
  s.forest.together NodeHead.segment NodeHead.captures BytesStart.segment (nodeCalls value) [] document

@[simp] lemma map_str_mk (path : List String) : (path.map PathSegment.mk).map PathSegment.str = path := by
  simp [Function.comp_def]

@[simp] lemma map_mk_str (path : List PathSegment) : (path.map PathSegment.str).map PathSegment.mk = path := by
  simp [Function.comp_def]

section Represents

variable [Rule R] {value : RuleLiteral → R} {s : Schema} {tree : DescriptorTree R} {b : TreeBuilder R}

/-- The node of a tree that stands for a node of the term. -/
structure StandsFor (value : RuleLiteral → R) (tree : DescriptorTree R) (id : NodeId)
    (e : Forest.Entry PathSegment NodeHead RuleLiteral) : Prop where
  contains : tree.Contains id
  tags_eq : (tree.desc id).tags = e.path.map PathSegment.str
  rules_eq : (tree.desc id).rules = e.content.leaves.map value
  capture_eq : tree.isCapture id = e.label.captures

omit [Rule R] in
lemma Represents.standsFor (h : Represents tree b.declarations b.captureMemoryLimit) {i : ℕ}
    {d : NodeDeclaration R} (hd : b.declarations[i]? = some d) {e : Forest.Entry PathSegment NodeHead RuleLiteral}
    (hdeclares : Declares value e d) : StandsFor value tree ⟨i⟩ e := by
  have hlt := (List.getElem?_eq_some_iff.mp hd).1
  refine ⟨lt_of_lt_of_eq hlt h.length_eq.symm, ?_, (h.rules_eq i d hd).trans hdeclares.rules_eq,
    (h.capture_eq i d hd).trans hdeclares.capture_eq⟩
  rw [DescriptorNode.tags, (h.place_eq i d hd).2.1, hdeclares.path_eq]

/-- The nodes of the tree of a term are those of the term. -/
structure TreeOf (value : RuleLiteral → R) (s : Schema) (tree : DescriptorTree R) : Prop where
  wellFormed : tree.WellFormed
  distinct : s.forest.SiblingsDistinct NodeHead.segment
  node_of_entry : ∀ e ∈ s.forest.entries NodeHead.segment [], ∃ id, StandsFor value tree id e
  entry_of_node : ∀ id, tree.Contains id → ∃ e ∈ s.forest.entries NodeHead.segment [], StandsFor value tree id e

lemma treeOf_build (htree : TreeBuilder.build ⟨s.declarations value, [0], 64 * 1024 * 1024⟩ = .ok tree) :
    TreeOf value s tree := by
  have hb := s.validBuilder value
  have hwf := TreeBuilder.wellFormed_of_build hb htree
  rcases TreeBuilder.build_cases hb with ⟨hvalid, hok⟩ | ⟨-, err, herr⟩
  case inr =>
    rw [htree] at herr
    cases herr
  obtain rfl := Except.ok.inj (htree.symm.trans hok)
  have hrepresents := TreeBuilder.represents_closedForm hb hvalid hwf
  refine ⟨hwf, ((s.validSchema_iff value).mp hvalid).distinct, fun e he => ?_, fun id hid => ?_⟩
  · obtain ⟨i, d, hd, hdeclares⟩ := s.declaration_of_entry value he
    exact ⟨⟨i⟩, hrepresents.standsFor hd hdeclares⟩
  · obtain ⟨d, hd⟩ := TreeBuilder.contains_closedForm.mp hid
    obtain ⟨e, he, hdeclares⟩ := s.entry_of_declaration (List.mem_of_getElem? hd)
    exact ⟨e, he, hrepresents.standsFor hd hdeclares⟩

variable {path : List String} {head : NodeHead} {content : SchemaBody} {id : NodeId}

/-- An element is evaluated with the node that its path finds in the term. -/
lemma TreeOf.evaluatedAt_of_resolve (h : TreeOf value s tree)
    (hpath : s.forest.resolve NodeHead.segment NodeHead.captures (path.map PathSegment.mk) =
      some (head, content)) :
    ∃ id, tree.evaluatedAt path = some id ∧
      StandsFor value tree id ⟨path.map PathSegment.mk, head, content⟩ := by
  obtain ⟨hentry, hstops⟩ := (Forest.resolve_eq_some_iff h.distinct []).mp hpath
  obtain ⟨id, hid⟩ := h.node_of_entry _ hentry
  have htags : (tree.desc id).tags = path := hid.tags_eq.trans (map_str_mk path)
  have habove : tree.belowCapture path = false := by
    rw [Bool.eq_false_iff, ne_eq, DescriptorTree.belowCapture_iff]
    rintro ⟨c, hc, hcapture, hle, hne⟩
    obtain ⟨e, he, hstands⟩ := h.entry_of_node c hc
    rw [hstands.capture_eq] at hcapture
    have hepath : e.path = (tree.desc c).tags.map PathSegment.mk := by rw [hstands.tags_eq, map_mk_str]
    have heq := hstops e he hcapture (by rw [hepath]; exact hle.map _)
    exact hne (by rw [hstands.tags_eq, heq, List.nil_append, map_str_mk])
  refine ⟨id, ?_, hid⟩
  rw [DescriptorTree.evaluatedAt, habove, if_neg Bool.false_ne_true]
  exact h.wellFormed.declaredAt_eq_some.mpr ⟨hid.contains, htags⟩

lemma TreeOf.resolve_of_evaluatedAt (h : TreeOf value s tree) (hid : tree.evaluatedAt path = some id) :
    ∃ head content, s.forest.resolve NodeHead.segment NodeHead.captures (path.map PathSegment.mk) =
      some (head, content) := by
  obtain ⟨hcontains, htags, habove⟩ := h.wellFormed.of_evaluatedAt hid
  obtain ⟨e, he, hstands⟩ := h.entry_of_node id hcontains
  have hpath : e.path = path.map PathSegment.mk := by rw [← htags, hstands.tags_eq, map_mk_str]
  refine ⟨e.label, e.content, (Forest.resolve_eq_some_iff h.distinct []).mpr ⟨?_, fun e' he' hcaptures hle => ?_⟩⟩
  · rw [List.nil_append, ← hpath]
    exact he
  · by_contra hne
    obtain ⟨c, hc⟩ := h.node_of_entry e' he'
    have hbelow : tree.belowCapture path = true := by
      refine DescriptorTree.belowCapture_iff.mpr ⟨c, hc.contains, hc.capture_eq.trans hcaptures, ?_, ?_⟩
      · rw [hc.tags_eq]
        simpa only [List.nil_append, map_str_mk] using hle.map PathSegment.str
      · intro heq
        rw [hc.tags_eq] at heq
        exact hne (by rw [List.nil_append, ← heq, map_mk_str])
    rw [habove] at hbelow
    cases hbelow

/-- What an element is owed can be looked up in the term. -/
theorem TreeOf.owedCalls_eq (h : TreeOf value s tree) (path : List String) : owedCalls tree path =
    s.forest.visitAt NodeHead.segment NodeHead.captures (nodeCalls value) (path.map PathSegment.mk) := by
  rw [Forest.visitAt]
  cases hresolve : s.forest.resolve NodeHead.segment NodeHead.captures (path.map PathSegment.mk) with
  | none =>
    cases hid : tree.evaluatedAt path with
    | none => rw [owedCalls, hid]
    | some id =>
      obtain ⟨head, content, hsome⟩ := h.resolve_of_evaluatedAt hid
      rw [hresolve] at hsome
      cases hsome
  | some x =>
    obtain ⟨head, content⟩ := x
    obtain ⟨id, hid, hstands⟩ := h.evaluatedAt_of_resolve hresolve
    obtain ⟨hentry, -⟩ := (Forest.resolve_eq_some_iff h.distinct []).mp hresolve
    obtain ⟨q, hconcat⟩ := Forest.path_concat_of_mem_entries hentry
    have hlast : path.getLastD "" = head.tag := by
      have hpath := congrArg (List.map PathSegment.str) hconcat
      dsimp only at hpath
      rw [List.nil_append, List.nil_append, map_str_mk, List.map_append, List.map_singleton] at hpath
      rw [hpath, List.getLastD_concat]
      rfl
    rw [owedCalls, hid]
    simp only [hstands.rules_eq, nodeCalls, List.map_map, List.length_map, hlast]
    rfl

/-- The calls that the elements of a document are owed are those of the term. -/
theorem TreeOf.referenceCalls_eq (h : TreeOf value s tree) (document : Content) :
    referenceCalls tree document = s.calls value document := by
  rw [referenceCalls, closingPaths, List.flatMap_map, Schema.calls, Forest.together_eq]
  refine List.flatMap_congr fun p _ => ?_
  rw [h.owedCalls_eq, List.map_map]
  rfl

end Represents

section Programs

variable [Rule R] {value : RuleLiteral → R} {s s' : Schema} {tokens tokens' : List TokenTree}
  {tree tree' : DescriptorTree R}

lemma treeOf_buildTree (hs : Written s tokens) (htree : buildTree value tokens = some (.ok tree)) :
    TreeOf value s tree := by
  rw [buildTree_written value hs, Option.some.injEq] at htree
  exact treeOf_build htree

/-- A schema term that is written down, expanded, built and run on a document makes exactly the calls that the
term stands for on the document, in their order, and sends what they return. -/
theorem buildTree_meaning (hs : Written s tokens) (htree : buildTree value tokens = some (.ok tree))
    (checks : OverflowChecks) (document : Content) (ts : List Event) (hdoc : Writes document ts)
    (hrules : ∀ node ∈ tree.nodes, node.rules.length ≤ 64) (hfew : FewChildren document)
    (hread : Readable document) (hfit : CapturesFit tree [] document) :
    let o := parseFile checks tree (ts.map .ok)
    o.result = .ok () ∧ o.out.evaluated.map Evaluation.call = s.calls value document ∧
      o.out.sent = o.out.evaluated.flatMap Evaluation.diagnostics := by
  have htreeOf := treeOf_buildTree hs htree
  have hok := parseFile_finished checks htreeOf.wellFormed hdoc hrules hfew hread hfit
  exact ⟨hok, (parseFile_calls htreeOf.wellFormed hdoc hok).trans (htreeOf.referenceCalls_eq document),
    parseFile_sent htreeOf.wellFormed hok⟩

lemma buildTree_eq (hs : Written s tokens) (hdeclared : WellDeclared value s.forest) : buildTree value tokens =
    some (.ok (TreeBuilder.closedForm ⟨s.declarations value, [0], 64 * 1024 * 1024⟩)) := by
  rw [buildTree_written value hs]
  rcases TreeBuilder.build_cases (s.validBuilder value) with ⟨-, hok⟩ | ⟨hinvalid, -⟩
  · rw [hok]
  · exact absurd ((s.validSchema_iff value).mpr hdeclared) hinvalid

/-- Where a schema gets more nodes or rules, the calls of the others stay, in their order, on every document
that both trees read to its end. -/
theorem extended_schema_calls (hs : Written s tokens) (hs' : Written s' tokens')
    (hextends : Forest.Extends s.forest s'.forest) (htree : buildTree value tokens = some (.ok tree))
    (htree' : buildTree value tokens' = some (.ok tree')) (checks : OverflowChecks) (document : Content)
    (ts : List Event) (hdoc : Writes document ts) (hok : (parseFile checks tree (ts.map .ok)).result = .ok ())
    (hok' : (parseFile checks tree' (ts.map .ok)).result = .ok ()) :
    ((parseFile checks tree (ts.map .ok)).out.evaluated.map Evaluation.call).Sublist
      ((parseFile checks tree' (ts.map .ok)).out.evaluated.map Evaluation.call) := by
  have htreeOf := treeOf_buildTree hs htree
  have htreeOf' := treeOf_buildTree hs' htree'
  rw [parseFile_calls htreeOf.wellFormed hdoc hok, parseFile_calls htreeOf'.wellFormed hdoc hok',
    htreeOf.referenceCalls_eq, htreeOf'.referenceCalls_eq]
  refine hextends.together_sublist htreeOf'.distinct (fun path head content content' h => ?_) [] document
  exact h.leaves_sublist.map _

end Programs

/-! ### Sample terms -/

/-- All rules report. -/
def sampleValue : RuleLiteral → Probe := fun _ => ⟨.all, true⟩

/-- The tree of a list with captured items. -/
def listTree : DescriptorTree Probe :=
  TreeBuilder.closedForm ⟨listSchema.declarations sampleValue, [0], 64 * 1024 * 1024⟩

lemma listTree_built : buildTree sampleValue listTokens = some (.ok listTree) :=
  buildTree_eq listTokens_written (by decide +kernel)

theorem buildTree_meaning_sample :
    let o := parseFile .checked listTree (sampleDocument.tokens.map .ok)
    o.result = .ok () ∧ o.out.evaluated.map Evaluation.call = listSchema.calls sampleValue sampleDocument ∧
      o.out.sent = o.out.evaluated.flatMap Evaluation.diagnostics :=
  buildTree_meaning listTokens_written listTree_built .checked sampleDocument _ (writes_tokens _)
    (by decide +kernel) (by decide +kernel) (by decide +kernel) (by decide +kernel)

/-- The list with boxes and a rule for them. -/
def longListSchema : Schema where
  head := ⟨"list", none⟩
  body := .leaf (emptyLiteral "First")
    (.element ⟨"item", some .capture⟩ (.leaf (emptyLiteral "Inner") .nil)
      (.element ⟨"box", none⟩ (.leaf (emptyLiteral "Boxed") .nil) (.leaf (emptyLiteral "Last") .nil)))

def longListTokens : List TokenTree :=
  [.literal "list", .braces [.ident "First", .braces [], .comma,
    .literal "item", .ident "capture", .braces [.ident "Inner", .braces []], .comma,
    .literal "box", .braces [.ident "Boxed", .braces []], .comma,
    .ident "Last", .braces []]]

lemma longListTokens_written : Written longListSchema longListTokens :=
  .root (.rule (emptyLiteral "First")
    (.node ⟨"item", some .capture⟩ (.lastRule (emptyLiteral "Inner"))
      (.node ⟨"box", none⟩ (.lastRule (emptyLiteral "Boxed")) (.lastRule (emptyLiteral "Last")))))

def longListTree : DescriptorTree Probe :=
  TreeBuilder.closedForm ⟨longListSchema.declarations sampleValue, [0], 64 * 1024 * 1024⟩

lemma longListTree_built : buildTree sampleValue longListTokens = some (.ok longListTree) :=
  buildTree_eq longListTokens_written (by decide +kernel)

theorem extended_schema_calls_sample :
    ((parseFile .checked listTree (sampleDocument.tokens.map .ok)).out.evaluated.map Evaluation.call).Sublist
      ((parseFile .checked longListTree (sampleDocument.tokens.map .ok)).out.evaluated.map Evaluation.call) :=
  extended_schema_calls listTokens_written longListTokens_written
    (.element _ (.leaf _ (.element _ (.leaf _ .nil) (.newElement _ _ (.leaf _ .nil)))) .nil)
    listTree_built longListTree_built .checked sampleDocument _ (writes_tokens _) (by decide +kernel)
    (by decide +kernel)

end XmlOxydizer

import XmlOxydizer.Proofs.Declarations
import XmlOxydizer.Proofs.SwitchedTrees

/-!
# Valid schemas and path resolution

`build` accepts exactly the calls that declare a valid schema. The tree that it returns has one node for each
node that the calls declare, and looking up tag after tag from the root resolves a path.
-/

namespace XmlOxydizer

open Relation

variable {R : Type}

/-- How far below the root a call leads from `depth` levels below it. -/
def BuilderCall.depthAfter (depth : ℕ) : BuilderCall R → ℕ
  | .node _ => depth + 1
  | .done => depth - 1
  | _ => depth

/-- Calls that start `depth` levels below the root and never ascend from it. -/
def StaysBelowRoot : ℕ → List (BuilderCall R) → Prop
  | _, [] => True
  | depth, c :: cs => (c = .done → 0 < depth) ∧ StaysBelowRoot (c.depthAfter depth) cs

/-- What `build` asks of the declarations. -/
structure ValidSchema [Rule R] (decls : List (NodeDeclaration R)) : Prop where
  paths_nodup : (decls.map NodeDeclaration.fullPath).Nodup
  capture_rules : ∀ d ∈ decls, ∀ rule ∈ d.rules, (Rule.needs rule).contains .capture = true →
    d.isCapture = true
  no_nesting : ∀ i d, decls[i]? = some d → d.isCapture = true →
    ∀ a e, TransGen (ParentOf decls) i a → decls[a]? = some e → e.isCapture = false

/-- The tree has one node for each declaration, linked as the declarations are. -/
structure Represents (tree : DescriptorTree R) (decls : List (NodeDeclaration R)) (limit : ℕ) : Prop where
  root_eq : tree.rootId = some ⟨0⟩
  limit_eq : tree.captureMemoryLimit = limit
  length_eq : tree.nodes.length = decls.length
  place_eq : ∀ i d, decls[i]? = some d → (tree.desc ⟨i⟩).tag = d.tag ∧
    (tree.desc ⟨i⟩).fullPath = d.fullPath ∧ (tree.desc ⟨i⟩).parentId = d.parentIndex.map NodeId.mk
  rules_eq : ∀ i d, decls[i]? = some d → (tree.desc ⟨i⟩).rules = d.rules
  capture_eq : ∀ i d, decls[i]? = some d → (tree.desc ⟨i⟩).needs.isCapture = d.isCapture
  parent_spec : ∀ c p, tree.Contains c → (tree.desc c).parentId = some p →
    p.val < c.val ∧ (tree.desc c).fullPath = (tree.desc p).fullPath ++ [(tree.desc c).tag]
  childIds_eq : ∀ p, tree.Contains p → (tree.desc p).childIds =
    ((List.range tree.nodes.length).map NodeId.mk).filter (fun c => (tree.desc c).parentId = some p)
  sorted : ∀ p, tree.Contains p →
    ((tree.desc p).childrenSorted.map (fun entry => entry.1.str)).Pairwise (· < ·)
  sorted_perm : ∀ p, tree.Contains p →
    (tree.desc p).childrenSorted.Perm ((tree.desc p).childIds.map (fun c => ((tree.desc c).tag, c)))

/-- `child_of` again and again, from a node along a list of tags. -/
def DescriptorTree.follow (tree : DescriptorTree R) (id : NodeId) :
    List String → Except Panic (Option NodeId)
  | [] => .ok (some id)
  | tag :: tags => do
    match ← tree.childOf id tag with
    | none => return none
    | some c => tree.follow c tags

namespace TreeBuilder

/-! ### The calls -/

/-- A valid builder allows every call but to ascend from the root. -/
lemma call_ok {b : TreeBuilder R} (hb : b.Valid) {c : BuilderCall R} {depth : ℕ}
    (hdepth : b.parentStack.length = depth + 1) (hdone : c = .done → 0 < depth) :
    ∃ b', b.call c = .ok b' ∧ b'.parentStack.length = c.depthAfter depth + 1 := by
  obtain ⟨decls, stack, limit⟩ := b
  obtain ⟨p, d, hp, hd⟩ : ∃ p d, stack.getLast? = some p ∧ decls[p]? = some d := hb.current
  cases c with
  | streaming => exact ⟨_, call_streaming hp hd, hdepth⟩
  | captureSubtree => exact ⟨_, call_captureSubtree hp hd, hdepth⟩
  | rule rule => exact ⟨_, call_rule hp hd rule, hdepth⟩
  | node tag => exact ⟨_, call_node hp hd tag, by simpa [BuilderCall.depthAfter] using hdepth⟩
  | done =>
    have hpos := hdone rfl
    replace hdepth : stack.length = depth + 1 := hdepth
    simp only [call, done, BuilderCall.depthAfter]
    rw [if_pos (by omega)]
    exact ⟨_, rfl, by rw [List.length_dropLast]; omega⟩
  | captureLimit bytes => exact ⟨_, rfl, hdepth⟩

theorem calls_ok {b : TreeBuilder R} (hb : b.Valid) {cs : List (BuilderCall R)} {depth : ℕ}
    (hdepth : b.parentStack.length = depth + 1) (h : StaysBelowRoot depth cs) :
    ∃ b', b.calls cs = .ok b' := by
  induction cs generalizing b depth with
  | nil => exact ⟨b, rfl⟩
  | cons c cs ih =>
    obtain ⟨b₁, hb₁, hdepth₁⟩ := call_ok hb hdepth h.1
    obtain ⟨b', hb'⟩ := ih (valid_call hb hb₁) hdepth₁ h.2
    exact ⟨b', (calls_cons hb₁ cs).trans hb'⟩

/-! ### What `build` accepts -/

/-- `build` returns the closed form of its passes or an error, as the declarations are valid or not. -/
theorem build_cases [Rule R] {b : TreeBuilder R} (hb : b.Valid) :
    (ValidSchema b.declarations ∧ b.build = .ok b.closedForm) ∨
      ¬ ValidSchema b.declarations ∧ ∃ err, b.build = .error (.error err) := by
  have hne : b.declarations.isEmpty = false := by simpa using hb.declared
  cases hdup : checkDuplicates [] b.declarations with
  | error err =>
    refine .inr ⟨fun h => ?_, err, by simp [build, hne, hdup]⟩
    have hok := checkDuplicates_eq_ok.mpr ⟨h.paths_nodup, fun d _ => List.not_mem_nil⟩
    rw [hdup] at hok
    cases hok
  | ok _ =>
    cases hacc : checkAccessModes b.declarations with
    | error err =>
      refine .inr ⟨fun h => ?_, err, by simp [build, hne, hdup, hacc]⟩
      have hok := checkAccessModes_eq_ok.mpr (fun d hd rule hrule hneeds =>
        h.capture_rules d hd rule hrule (by rwa [NodeNeeds.contains_capture]))
      rw [hacc] at hok
      cases hok
    | ok _ =>
      rcases checkNesting_cases hb.placed (fun d hd => hd) with ⟨hok, hnone⟩ | ⟨⟨err, herr⟩, i, d, a, f, h⟩
      · refine .inl ⟨⟨(checkDuplicates_eq_ok.mp hdup).1, ?_, ?_⟩, (build_eq_ok hb).mpr ⟨hdup, hacc, hok, rfl⟩⟩
        · simpa using checkAccessModes_eq_ok.mp hacc
        · exact fun i d hd => hnone i d (List.mem_of_getElem? hd) hd
      · refine .inr ⟨fun hvalid => ?_, err, by simp [build, hne, hdup, hacc, herr]⟩
        obtain ⟨hd, hcapture, ha, hf, hfcapture⟩ := h
        rw [hvalid.no_nesting i d hd hcapture a f ha hf] at hfcapture
        cases hfcapture

/-! ### What `build` returns -/

section

variable [Rule R] {b : TreeBuilder R}

lemma childIds_closedForm {p : NodeId} (hp : b.closedForm.Contains p) : (b.closedForm.desc p).childIds =
    ((List.range b.closedForm.nodes.length).map NodeId.mk).filter
      (fun c => (b.closedForm.desc c).parentId = some p) := by
  obtain ⟨d, hd⟩ := contains_closedForm.mp hp
  have hlength : b.closedForm.nodes.length = b.declarations.length := by simp [closedForm]
  rw [desc_closedForm _ hd, summarizedNode_childIds, childrenUpTo, hlength, List.filter_map]
  congr 1
  apply List.filter_congr
  intro i hi
  have hdecl := List.getElem?_eq_getElem (List.mem_range.mp hi)
  rw [Function.comp_apply, desc_closedForm ⟨i⟩ hdecl, summarizedNode_parentId, hdecl, ← Bool.coe_iff_coe]
  simp only [Option.bind_some, beq_iff_eq, decide_eq_true_eq, Option.map_eq_some_iff]
  constructor
  · exact fun h => ⟨_, h, rfl⟩
  · rintro ⟨q, hq, rfl⟩
    exact hq

lemma childrenSorted_perm {p : NodeId} (hp : b.closedForm.Contains p) :
    (b.closedForm.desc p).childrenSorted.Perm
      ((b.closedForm.desc p).childIds.map (fun c => ((b.closedForm.desc c).tag, c))) := by
  obtain ⟨d, hd⟩ := contains_closedForm.mp hp
  rw [desc_closedForm _ hd, summarizedNode_childrenSorted, summarizedNode_childIds, List.map_map]
  refine (List.perm_insertionSort _ _).trans (List.Perm.of_eq ?_)
  apply List.map_congr_left
  intro i hi
  obtain ⟨-, e, he, -⟩ := mem_childrenUpTo.mp hi
  rw [Function.comp_apply, desc_closedForm ⟨i⟩ he, summarizedNode_tag, tagAt_eq he]

theorem represents_closedForm (hb : b.Valid) (hvalid : ValidSchema b.declarations)
    (hwf : b.closedForm.WellFormed) : Represents b.closedForm b.declarations b.captureMemoryLimit := by
  have hcontains : ∀ i d, b.declarations[i]? = some d → b.closedForm.Contains ⟨i⟩ :=
    fun i d hd => contains_closedForm.mpr ⟨d, hd⟩
  constructor
  case root_eq => rfl
  case limit_eq => rfl
  case length_eq => simp [closedForm]
  case place_eq =>
    intro i d hd
    rw [desc_closedForm ⟨i⟩ hd]
    simp
  case rules_eq =>
    intro i d hd
    rw [desc_closedForm ⟨i⟩ hd, summarizedNode_rules]
  case capture_eq =>
    intro i d hd
    rw [desc_closedForm ⟨i⟩ hd, summarizedNode_needs, NodeNeeds.isCapture_eq, keptNode_isCapture]
    intro rule hrule hneeds
    exact hvalid.capture_rules d (List.mem_of_getElem? hd) rule hrule (by rwa [NodeNeeds.contains_capture])
  case parent_spec => exact hwf.parent_spec
  case childIds_eq => exact fun p hp => childIds_closedForm hp
  case sorted =>
    intro p hp
    obtain ⟨d, hd⟩ := contains_closedForm.mp hp
    rw [desc_closedForm _ hd]
    exact childrenSorted_lt hb.placed hvalid.paths_nodup _ _ _
  case sorted_perm => exact fun p hp => childrenSorted_perm hp

end

end TreeBuilder

/-- Looking up tag after tag finds the node with the path that is followed. -/
theorem follow_spec [Rule R] {tree : DescriptorTree R} (hwf : tree.WellFormed) (tags : List String)
    {id : NodeId} (hid : tree.Contains id) : ∃ r, tree.follow id tags = .ok r ∧
      ∀ c, r = some c ↔ tree.Contains c ∧ (tree.desc c).tags = (tree.desc id).tags ++ tags := by
  induction tags generalizing id with
  | nil =>
    refine ⟨some id, rfl, fun c => ?_⟩
    rw [Option.some.injEq, List.append_nil]
    constructor
    · rintro rfl
      exact ⟨hid, rfl⟩
    · exact fun ⟨hc, htags⟩ => hwf.tags_inj hid hc htags.symm
  | cons tag tags ih =>
    obtain ⟨r, hr, hchild⟩ := hwf.childOf_spec id hid tag
    rw [DescriptorTree.follow, hr, ok_bind]
    cases r with
    | none =>
      refine ⟨none, rfl, fun c => iff_of_false (by simp) ?_⟩
      rintro ⟨hc, htags⟩
      -- the node one step down would be a declared child
      have hlen := congrArg List.length htags
      rw [List.length_append, List.length_cons] at hlen
      obtain ⟨a, ha, hatags⟩ :=
        hwf.ancestor_at hc (j := (tree.desc id).tags.length + 1) (by omega) (by omega)
      rw [htags, ← List.singleton_append, ← List.append_assoc, List.take_left' (by simp)] at hatags
      exact absurd ((hchild a).mpr (hwf.isChild_of_tags hid ha hatags)) (by simp)
    | some c =>
      have hc := (hchild c).mp rfl
      obtain ⟨r, hr, hspec⟩ := ih hc.contains
      refine ⟨r, hr, fun d => ?_⟩
      rw [hspec, hwf.tags_child hc, List.append_assoc, List.singleton_append]

/-- After any calls that do not ascend from the root, `build` returns a tree exactly when the calls declare
a valid schema, and an error otherwise. The tree represents what the calls declare, `childOf` finds exactly
the declared child, and following a list of tags from the root finds the node at this path. -/
theorem build_accepts_iff [Rule R] (rootTag : String) (cs : List (BuilderCall R))
    (hcs : StaysBelowRoot 0 cs) : ∃ b, (TreeBuilder.new rootTag).calls cs = .ok b ∧
      b.declarations = declaredBy rootTag cs ∧
      ((∃ tree, b.build = .ok tree) ↔ ValidSchema (declaredBy rootTag cs)) ∧
      (¬ ValidSchema (declaredBy rootTag cs) → ∃ err, b.build = .error (.error err)) ∧
      ∀ tree, b.build = .ok tree → Represents tree (declaredBy rootTag cs) (finalLimit cs) ∧
        (∀ p, tree.Contains p → ∀ tag, ∃ r, tree.childOf p tag = .ok r ∧
          ∀ c, r = some c ↔ tree.Contains c ∧ (tree.desc c).parentId = some p ∧
            (tree.desc c).tag.str = tag) ∧
        ∀ tags, ∃ r, tree.follow ⟨0⟩ tags = .ok r ∧
          ∀ c, r = some c ↔ tree.Contains c ∧ (tree.desc c).tags = (tree.desc ⟨0⟩).tags ++ tags := by
  have hnew := TreeBuilder.valid_new (R := R) rootTag
  have hdepth : (TreeBuilder.new rootTag : TreeBuilder R).parentStack.length = 0 + 1 := rfl
  obtain ⟨b, hb⟩ := TreeBuilder.calls_ok hnew hdepth hcs
  have hvalid := TreeBuilder.valid_calls hnew hb
  have hholds := TreeBuilder.holds_calls hb
  rw [← hholds.declarations_eq, ← hholds.limit_eq]
  refine ⟨b, hb, rfl, ?_⟩
  rcases TreeBuilder.build_cases hvalid with ⟨hschema, hok⟩ | ⟨hschema, err, herr⟩
  · have hwf := TreeBuilder.wellFormed_of_build hvalid hok
    refine ⟨iff_of_true ⟨_, hok⟩ hschema, fun hne => absurd hschema hne, fun tree htree => ?_⟩
    obtain rfl := Except.ok.inj (hok.symm.trans htree)
    refine ⟨TreeBuilder.represents_closedForm hvalid hschema hwf, fun p hp tag => ?_, fun tags => ?_⟩
    · obtain ⟨r, hr, hchild⟩ := hwf.childOf_spec p hp tag
      refine ⟨r, hr, fun c => (hchild c).trans ?_⟩
      exact ⟨fun h => ⟨h.contains, h.parent, h.tag_eq⟩, fun h => ⟨h.1, h.2.1, h.2.2⟩⟩
    · exact follow_spec hwf tags hwf.root_contains
  · refine ⟨iff_of_false (fun ⟨tree, htree⟩ => ?_) hschema, fun _ => ⟨err, herr⟩, fun tree htree => ?_⟩
    · rw [herr] at htree
      cases htree
    · rw [herr] at htree
      cases htree

/-- The calls of a list with an item and a captured box, whose mode is asked for twice. -/
def sampleCalls : List (BuilderCall Probe) :=
  [.rule ⟨.all, true⟩, .node "item", .done, .node "box", .streaming, .captureSubtree, .rule ⟨⟨0x0f⟩, false⟩, .done]

/-- What they declare. -/
example : (declaredBy "list" sampleCalls).map (fun d => (d.fullPath.map PathSegment.str, d.isCapture,
    d.rules.length, d.parentIndex)) =
    [(["list"], false, 1, none), (["list", "item"], false, 0, some 0), (["list", "box"], true, 1, some 0)] := by
  decide +kernel

def sampleBuilt : BuiltTree Probe := (BuiltTree.ofCalls? "list" sampleCalls).get (by decide +kernel)

/-- `build` returns the tree of the sample calls. -/
theorem build_accepts_iff_sample : ∃ b tree, (TreeBuilder.new "list").calls sampleCalls = .ok b ∧
    b.build = .ok tree ∧ Represents tree (declaredBy "list" sampleCalls) (finalLimit sampleCalls) := by
  obtain ⟨b, hb, -, -, -, hbuilt⟩ :=
    build_accepts_iff "list" sampleCalls (by simp [sampleCalls, StaysBelowRoot, BuilderCall.depthAfter])
  have hcalls : (TreeBuilder.new "list").calls sampleCalls = .ok sampleBuilt.builder := rfl
  obtain rfl := Except.ok.inj (hcalls.symm.trans hb)
  exact ⟨_, _, hb, sampleBuilt.build_eq, (hbuilt _ sampleBuilt.build_eq).1⟩

end XmlOxydizer

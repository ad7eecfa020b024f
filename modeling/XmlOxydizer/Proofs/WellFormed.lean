import XmlOxydizer.Proofs.BuildPasses

/-!
# Built trees are well formed

What the parser relies on in a tree that `build` returns: ids index the node array, the
path of a node extends the path of its parent, `childOf` finds exactly the declared child,
and the flags of a node cover what its rules, its descendants and its parent may read.
-/

namespace XmlOxydizer

variable {R : Type}

namespace DescriptorTree

/-- The node with a given id, for ids of the tree. -/
def desc (tree : DescriptorTree R) (id : NodeId) : DescriptorNode R :=
  tree.nodes.getD id.val default

/-- Whether `id` indexes the node array. -/
def Contains (tree : DescriptorTree R) (id : NodeId) : Prop := id.val < tree.nodes.length

lemma get_eq {tree : DescriptorTree R} {id : NodeId} (h : tree.Contains id) :
    tree.get id = .ok (tree.desc id) :=
  index_ok (by simp [desc, List.getD_eq_getElem?_getD, List.getElem?_eq_getElem h])

lemma desc_mem {tree : DescriptorTree R} {id : NodeId} (h : tree.Contains id) :
    tree.desc id ∈ tree.nodes := by
  rw [desc, List.getD_eq_getElem _ _ h]
  exact List.getElem_mem h

/-- `c` is declared as a child of `p` under the tag `tag`. -/
structure IsChild (tree : DescriptorTree R) (p c : NodeId) (tag : String) : Prop where
  contains : tree.Contains c
  parent : (tree.desc c).parentId = some p
  tag_eq : (tree.desc c).tag.str = tag

/-- What `build` guarantees about a tree. -/
structure WellFormed [Rule R] (tree : DescriptorTree R) : Prop where
  rootId_eq : tree.rootId = some ⟨0⟩
  root_contains : tree.Contains ⟨0⟩
  root_path : (tree.desc ⟨0⟩).fullPath = [(tree.desc ⟨0⟩).tag]
  root_parent : (tree.desc ⟨0⟩).parentId = none
  parent_spec : ∀ c p, tree.Contains c → (tree.desc c).parentId = some p →
    p.val < c.val ∧ (tree.desc c).fullPath = (tree.desc p).fullPath ++ [(tree.desc c).tag]
  eq_root : ∀ c, tree.Contains c → (tree.desc c).parentId = none → c = ⟨0⟩
  path_inj : ∀ c d, tree.Contains c → tree.Contains d →
    (tree.desc c).fullPath = (tree.desc d).fullPath → c = d
  childOf_spec : ∀ p, tree.Contains p → ∀ tag, ∃ r, tree.childOf p tag = .ok r ∧
    ∀ c, r = some c ↔ tree.IsChild p c tag
  no_nesting : ∀ a c, tree.Contains a → tree.Contains c → (tree.desc a).needs.has 3 = true →
    (tree.desc c).needs.has 3 = true → (tree.desc a).fullPath <+: (tree.desc c).fullPath → a = c
  rule_needs : ∀ c, tree.Contains c → ∀ r ∈ (tree.desc c).rules, ∀ i,
    (Rule.needs r).has i → (tree.desc c).needs.has i
  children_needs : ∀ c, tree.Contains c → ((tree.desc c).needs.has 2 = true ↔
    ∃ r ∈ (tree.desc c).rules, (Rule.needs r).has 2 = true)
  child_keeps : ∀ c p, tree.Contains c → (tree.desc c).parentId = some p →
    (tree.desc p).needs.has 0 ∧ (tree.desc p).needs.has 1
  summaryNeeds_eq : ∀ c p, tree.Contains c → (tree.desc c).parentId = some p →
    (tree.desc c).summaryNeeds = if (tree.desc p).needs.has 2 then .all else .empty
  root_summaryNeeds : (tree.desc ⟨0⟩).summaryNeeds = .empty

end DescriptorTree

/-- Declaration `a` is the parent of declaration `i`. -/
def ParentOf (decls : List (NodeDeclaration R)) (i a : ℕ) : Prop :=
  ∃ d, decls[i]? = some d ∧ d.parentIndex = some a

namespace TreeBuilder

open Relation

lemma checkDuplicates_eq_ok {seen : List (List PathSegment)} {decls : List (NodeDeclaration R)} :
    checkDuplicates seen decls = .ok () ↔
      (decls.map NodeDeclaration.fullPath).Nodup ∧ ∀ d ∈ decls, d.fullPath ∉ seen := by
  induction decls generalizing seen with
  | nil => simp [checkDuplicates]
  | cons d decls ih =>
    unfold checkDuplicates
    split
    case isTrue hmem => simp [hmem]
    case isFalse hmem =>
      simp only [ih, List.map_cons, List.nodup_cons, List.mem_map, List.mem_cons, not_or,
        forall_eq_or_imp, not_exists, not_and]
      constructor
      · rintro ⟨hnodup, hnew⟩
        exact ⟨⟨fun x hx => (hnew x hx).1, hnodup⟩, hmem, fun x hx => (hnew x hx).2⟩
      · rintro ⟨⟨hne, hnodup⟩, -, hold⟩
        exact ⟨hnodup, fun x hx => ⟨hne x hx, hold x hx⟩⟩

section

variable [Rule R]

lemma checkRules_eq_ok {d : NodeDeclaration R} {rules : List R} :
    checkRules d rules = .ok () ↔
      ∀ r ∈ rules, (Rule.needs r).has 3 = true → d.isCapture = true := by
  induction rules with
  | nil => simp [checkRules]
  | cons r rules ih =>
    simp only [checkRules, NodeNeeds.isCapture_eq, List.mem_cons, forall_eq_or_imp, ← ih]
    split
    case isTrue h =>
      simp only [Bool.and_eq_true, Bool.not_eq_true'] at h
      simp [h]
    case isFalse h =>
      simp only [Bool.and_eq_true, Bool.not_eq_true', not_and, Bool.not_eq_false] at h
      exact ⟨fun hr => ⟨h, hr⟩, fun hr => hr.2⟩

lemma checkAccessModes_eq_ok {decls : List (NodeDeclaration R)} :
    checkAccessModes decls = .ok () ↔
      ∀ d ∈ decls, ∀ r ∈ d.rules, (Rule.needs r).has 3 = true → d.isCapture = true := by
  induction decls with
  | nil => simp [checkAccessModes]
  | cons d decls ih =>
    simp only [checkAccessModes, bind_eq_ok, ih, List.mem_cons, forall_eq_or_imp,
      ← checkRules_eq_ok, exists_and_right]
    exact and_congr_left fun _ => ⟨fun ⟨_, h⟩ => h, fun h => ⟨(), h⟩⟩

/-! ### The check for nested captures -/

omit [Rule R] in
lemma path_ne_nil {decls : List (NodeDeclaration R)} (hp : Placed decls) {i : ℕ}
    {d : NodeDeclaration R} (hd : decls[i]? = some d) : d.fullPath ≠ [] := by
  rcases hp i d hd with ⟨-, -, hpath⟩ | ⟨p, e, -, -, -, hpath⟩ <;> simp [hpath]

omit [Rule R] in
/-- The walk to the root ends with an error exactly when it meets a capture. -/
lemma walkAncestors_cases {decls : List (NodeDeclaration R)} (hp : Placed decls) (d : NodeDeclaration R)
    {rounds p : ℕ} (hrounds : p < rounds) {e : NodeDeclaration R} (he : decls[p]? = some e) :
    (walkAncestors decls d rounds (some p) = .ok () ∧
      ∀ a f, ReflTransGen (ParentOf decls) p a → decls[a]? = some f → f.isCapture = false) ∨
    (∃ err, walkAncestors decls d rounds (some p) = .error (.error err)) ∧
      ∃ a f, ReflTransGen (ParentOf decls) p a ∧ decls[a]? = some f ∧ f.isCapture = true := by
  induction rounds generalizing p e with
  | zero => omega
  | succ rounds ih =>
    simp only [walkAncestors, index_ok he, orPanic_ok, ok_bind]
    by_cases hcapture : e.isCapture = true
    · rw [if_pos hcapture]
      exact .inr ⟨⟨_, rfl⟩, p, e, .refl, he, hcapture⟩
    · rw [if_neg hcapture]
      have hself : ∀ f, decls[p]? = some f → f.isCapture = false := by
        intro f hf
        obtain rfl := Option.some.inj (he.symm.trans hf)
        simpa using hcapture
      rcases hp p e he with ⟨hnone, -, -⟩ | ⟨q, g, hq, hlt, hg, -⟩
      · refine .inl ⟨by rw [hnone]; cases rounds <;> rfl, fun a f ha hf => ?_⟩
        rcases ha.cases_head with rfl | ⟨q, ⟨e', he', hq⟩, -⟩
        · exact hself f hf
        · obtain rfl := Option.some.inj (he.symm.trans he')
          rw [hnone] at hq
          cases hq
      · rw [hq]
        rcases ih (by omega) hg with ⟨hok, hall⟩ | ⟨herr, a, f, ha, hf, hfcapture⟩
        · refine .inl ⟨hok, fun a f ha hf => ?_⟩
          rcases ha.cases_head with rfl | ⟨q', ⟨e', he', hq'⟩, ha⟩
          · exact hself f hf
          · obtain rfl := Option.some.inj (he.symm.trans he')
            obtain rfl := Option.some.inj (hq.symm.trans hq')
            exact hall a f ha hf
        · exact .inr ⟨herr, a, f, .head ⟨e, he, hq⟩ ha, hf, hfcapture⟩

omit [Rule R] in
/-- The walk from a declaration finds the captures among its proper ancestors. -/
lemma walkParents_cases {decls : List (NodeDeclaration R)} (hp : Placed decls) {i : ℕ}
    {d : NodeDeclaration R} (hd : decls[i]? = some d) :
    (walkAncestors decls d decls.length d.parentIndex = .ok () ∧
      ∀ a f, TransGen (ParentOf decls) i a → decls[a]? = some f → f.isCapture = false) ∨
    (∃ err, walkAncestors decls d decls.length d.parentIndex = .error (.error err)) ∧
      ∃ a f, TransGen (ParentOf decls) i a ∧ decls[a]? = some f ∧ f.isCapture = true := by
  have hparent : ∀ {a}, TransGen (ParentOf decls) i a ↔
      ∃ p, d.parentIndex = some p ∧ ReflTransGen (ParentOf decls) p a := by
    intro a
    rw [TransGen.head'_iff]
    refine exists_congr fun p => and_congr_left fun _ => ⟨?_, fun h => ⟨d, hd, h⟩⟩
    rintro ⟨d', hd', h⟩
    rwa [Option.some.inj (hd.symm.trans hd')]
  rcases hp i d hd with ⟨hnone, -, -⟩ | ⟨p, e, hsome, hlt, he, -⟩
  · refine .inl ⟨by rw [hnone]; cases decls.length <;> rfl, fun a f ha => ?_⟩
    obtain ⟨p, h, -⟩ := hparent.mp ha
    rw [hnone] at h
    cases h
  · have hstart : ∀ {a}, TransGen (ParentOf decls) i a ↔ ReflTransGen (ParentOf decls) p a := by
      intro a
      rw [hparent, hsome]
      simp
    rw [hsome]
    have hrounds : p < decls.length := (List.getElem?_eq_some_iff.mp he).1
    simpa only [hstart] using walkAncestors_cases hp d hrounds he

omit [Rule R] in
/-- The third check fails exactly at a capture with a capture above it. -/
lemma checkNesting_cases {all : List (NodeDeclaration R)} (hp : Placed all)
    {decls : List (NodeDeclaration R)} (hsub : ∀ d ∈ decls, d ∈ all) :
    (checkNesting all decls = .ok () ∧ ∀ i d, d ∈ decls → all[i]? = some d → d.isCapture = true →
      ∀ a f, TransGen (ParentOf all) i a → all[a]? = some f → f.isCapture = false) ∨
    (∃ err, checkNesting all decls = .error (.error err)) ∧ ∃ i d a f, all[i]? = some d ∧
      d.isCapture = true ∧ TransGen (ParentOf all) i a ∧ all[a]? = some f ∧ f.isCapture = true := by
  induction decls with
  | nil => exact .inl ⟨rfl, fun _ _ hd => absurd hd List.not_mem_nil⟩
  | cons d decls ih =>
    have hrest := ih (fun e he => hsub e (List.mem_cons_of_mem _ he))
    unfold checkNesting
    by_cases hcapture : d.isCapture = true
    case neg =>
      rw [if_neg hcapture]
      rcases hrest with ⟨hok, hall⟩ | hbad
      · refine .inl ⟨hok, fun i e he hi hecapture => ?_⟩
        rcases List.mem_cons.mp he with rfl | he
        · exact absurd hecapture hcapture
        · exact hall i e he hi hecapture
      · exact .inr hbad
    case pos =>
      rw [if_pos hcapture]
      obtain ⟨i, hi⟩ := List.mem_iff_getElem?.mp (hsub d List.mem_cons_self)
      rcases walkParents_cases hp hi with ⟨hok, -⟩ | ⟨⟨err, herr⟩, a, f, ha, hf, hfcapture⟩
      · rw [hok]
        rcases hrest with ⟨hrestok, hall⟩ | hbad
        · refine .inl ⟨hrestok, fun j e he hj hecapture => ?_⟩
          rcases List.mem_cons.mp he with rfl | he
          · rcases walkParents_cases hp hj with ⟨-, hnone⟩ | ⟨⟨err, herr⟩, -⟩
            · exact hnone
            · rw [herr] at hok
              cases hok
          · exact hall j e he hj hecapture
        · exact .inr hbad
      · rw [herr]
        exact .inr ⟨⟨err, rfl⟩, i, d, a, f, hi, hcapture, ha, hf, hfcapture⟩

omit [Rule R] in
/-- A declaration whose path begins the path of another one is reached on the way to the root. -/
lemma ancestor_of_path {decls : List (NodeDeclaration R)} (hplaced : Placed decls)
    (hnodup : (decls.map NodeDeclaration.fullPath).Nodup) {a c : ℕ} {f d : NodeDeclaration R}
    (hf : decls[a]? = some f) (hd : decls[c]? = some d) (hle : f.fullPath <+: d.fullPath) :
    ReflTransGen (ParentOf decls) c a := by
  induction c using Nat.strong_induction_on generalizing d with
  | _ c ih =>
    by_cases heq : f.fullPath = d.fullPath
    · have hac : a = c := by
        refine (List.getElem?_inj ?_ hnodup).mp (by simp [hf, hd, heq])
        simpa using (List.getElem?_eq_some_iff.mp hf).1
      rw [hac]
    · rcases hplaced c d hd with ⟨-, -, hpath⟩ | ⟨p, e, hp, hlt, he, hpath⟩
      · have hshort : f.fullPath <+: [] ++ [d.tag] := by simpa [hpath] using hle
        rcases List.prefix_concat_iff.mp hshort with hall | hnil
        · exact absurd (by simp [hall, hpath]) heq
        · exact absurd (List.prefix_nil.mp hnil) (path_ne_nil hplaced hf)
      · rw [hpath] at hle heq
        exact .head ⟨d, hd, hp⟩ (ih p hlt he ((List.prefix_concat_iff.mp hle).resolve_left heq))

omit [Rule R] in
/-- No declared capture stands above another one. -/
lemma no_nesting_of_check {decls : List (NodeDeclaration R)} (hplaced : Placed decls)
    (hnodup : (decls.map NodeDeclaration.fullPath).Nodup) (hnest : checkNesting decls decls = .ok ())
    {a c : ℕ} {f d : NodeDeclaration R} (hf : decls[a]? = some f) (hd : decls[c]? = some d)
    (hfcapture : f.isCapture = true) (hdcapture : d.isCapture = true)
    (hle : f.fullPath <+: d.fullPath) : a = c := by
  rcases reflTransGen_iff_eq_or_transGen.mp (ancestor_of_path hplaced hnodup hf hd hle) with hac | habove
  · exact hac
  · rcases checkNesting_cases hplaced (fun d hd => hd) with ⟨-, hnone⟩ | ⟨⟨err, herr⟩, -⟩
    · have hstream := hnone c d (List.mem_of_getElem? hd) hd hdcapture a f habove hf
      rw [hfcapture] at hstream
      cases hstream
    · rw [hnest] at herr
      cases herr

/-- The closed form of the passes of `build`. -/
def closedForm (b : TreeBuilder R) : DescriptorTree R :=
  ⟨b.declarations.mapIdx (summarizedNode b.declarations b.declarations.length), some ⟨0⟩,
    b.captureMemoryLimit⟩

/-- `build` succeeds exactly when its three checks pass, and then returns the closed form
of its passes. -/
lemma build_eq_ok {b : TreeBuilder R} (hb : b.Valid) {tree : DescriptorTree R} :
    b.build = .ok tree ↔
      checkDuplicates [] b.declarations = .ok () ∧ checkAccessModes b.declarations = .ok () ∧
      checkNesting b.declarations b.declarations = .ok () ∧
      tree = b.closedForm := by
  have hne : b.declarations.isEmpty = false := by simpa using hb.declared
  have hlink := link_pass hb.placed
  have hsum := summary_pass hb.placed
  rw [build]
  simp only [hne, Bool.false_eq_true, if_false]
  cases hdup : checkDuplicates [] b.declarations with
  | error e => simp
  | ok u =>
    cases hacc : checkAccessModes b.declarations with
    | error e => simp
    | ok u =>
      cases hnest : checkNesting b.declarations b.declarations with
      | error e => simp
      | ok u =>
        simp only [orError_ok, ok_bind, except_pure, hlink, orPanic_ok, keep_pass, hsum,
          Except.ok.injEq, true_and]
        exact eq_comm

/-- The flags of a declaration's node cover the flags of its rules. -/
lemma has_foldl_needs (rules : List R) (acc : NodeNeeds) (i : ℕ) :
    (rules.foldl (fun acc r => acc ||| Rule.needs r) acc).has i =
      (acc.has i || rules.any (fun r => (Rule.needs r).has i)) := by
  induction rules generalizing acc with
  | nil => simp
  | cons r rules ih => simp [ih, Bool.or_assoc]

/-! ### The fields of a finished node -/

variable {decls : List (NodeDeclaration R)} {k i : ℕ} {d : NodeDeclaration R}

@[simp] lemma summarizedNode_fullPath : (summarizedNode decls k i d).fullPath = d.fullPath := by
  unfold summarizedNode keptNode propagateNeeds
  split <;> split <;> rfl

@[simp] lemma summarizedNode_tag : (summarizedNode decls k i d).tag = d.tag := by
  unfold summarizedNode keptNode propagateNeeds
  split <;> split <;> rfl

@[simp] lemma summarizedNode_rules : (summarizedNode decls k i d).rules = d.rules := by
  unfold summarizedNode keptNode propagateNeeds
  split <;> split <;> rfl

@[simp] lemma summarizedNode_childIds :
    (summarizedNode decls k i d).childIds =
      (childrenUpTo decls decls.length i).map NodeId.mk := by
  unfold summarizedNode keptNode propagateNeeds
  split <;> split <;> rfl

@[simp] lemma summarizedNode_childrenSorted :
    (summarizedNode decls k i d).childrenSorted =
      ((childrenUpTo decls decls.length i).map
        (fun j => (tagAt decls j, (⟨j⟩ : NodeId)))).insertionSort
        (fun a b => a.1.str ≤ b.1.str) := by
  unfold summarizedNode keptNode propagateNeeds
  split <;> split <;> rfl

lemma keptNode_summaryNeeds : (keptNode decls i d).summaryNeeds = .empty := by
  unfold keptNode propagateNeeds
  split <;> rfl

lemma keptNode_has (j : ℕ) : (keptNode decls i d).needs.has j =
    ((toNode d).needs.has j ||
      (decide (childrenUpTo decls decls.length i ≠ []) &&
        (NodeNeeds.attrs.has j || NodeNeeds.text.has j))) := by
  by_cases h : childrenUpTo decls decls.length i = []
  · simp [keptNode, propagateNeeds, sortChildren, linkedNode, h]
  · simp [keptNode, propagateNeeds, sortChildren, linkedNode, h, Bool.or_assoc]

lemma toNode_has (j : ℕ) : (toNode d).needs.has j =
    (d.rules.any (fun r => (Rule.needs r).has j) ||
      (d.isCapture && NodeNeeds.capture.has j)) := by
  cases h : d.isCapture <;> simp [toNode, h, has_foldl_needs]

lemma keptNode_isCapture (hacc : ∀ r ∈ d.rules, (Rule.needs r).has 3 = true → d.isCapture = true) :
    (keptNode decls i d).needs.has 3 = d.isCapture := by
  have hattrs : NodeNeeds.attrs.has 3 = false := by decide
  have htext : NodeNeeds.text.has 3 = false := by decide
  have hcapture : NodeNeeds.capture.has 3 = true := by decide
  simp only [keptNode_has, toNode_has, hattrs, htext, hcapture, Bool.or_false, Bool.and_false,
    Bool.and_true]
  cases hd : d.isCapture with
  | true => simp
  | false =>
    simp only [Bool.or_false, List.any_eq_false]
    intro r hr hneeds
    simpa [hd] using hacc r hr hneeds

end

/-! ### Looking up a child -/

section Lookup

variable {decls : List (NodeDeclaration R)}

lemma tagAt_eq {i : ℕ} {d : NodeDeclaration R} (h : decls[i]? = some d) : tagAt decls i = d.tag := by
  simp [tagAt, h]

/-- Two children of one node with one tag are one child. -/
lemma child_tag_inj (hp : Placed decls) (hnodup : (decls.map NodeDeclaration.fullPath).Nodup)
    {p i j : ℕ} (hi : i ∈ childrenUpTo decls decls.length p)
    (hj : j ∈ childrenUpTo decls decls.length p) (htag : tagAt decls i = tagAt decls j) : i = j := by
  obtain ⟨hil, d, hd, hdp⟩ := mem_childrenUpTo.mp hi
  obtain ⟨hjl, e, he, hep⟩ := mem_childrenUpTo.mp hj
  rw [tagAt_eq hd, tagAt_eq he] at htag
  have hpath : d.fullPath = e.fullPath := by
    rcases hp i d hd with ⟨hnone, -, -⟩ | ⟨q, f, hq, -, hf, hdpath⟩
    · simp [hnone] at hdp
    rcases hp j e he with ⟨hnone, -, -⟩ | ⟨q', f', hq', -, hf', hepath⟩
    · simp [hnone] at hep
    obtain rfl : q = p := by simpa [hq] using hdp
    obtain rfl : q' = q := by simpa [hq'] using hep
    obtain rfl : f = f' := by simpa [hf] using hf'
    rw [hdpath, hepath, htag]
  have hget : (decls.map NodeDeclaration.fullPath)[i]? = (decls.map NodeDeclaration.fullPath)[j]? := by
    simp [hd, he, hpath]
  exact (List.getElem?_inj (by simpa using hil) hnodup).mp hget

/-- The sorted children of a node have strictly increasing tags. -/
lemma childrenSorted_lt [Rule R] (hp : Placed decls)
    (hnodup : (decls.map NodeDeclaration.fullPath).Nodup) (k p : ℕ) (d : NodeDeclaration R) :
    ((summarizedNode decls k p d).childrenSorted.map (fun entry => entry.1.str)).Pairwise (· < ·) := by
  let le : PathSegment × NodeId → PathSegment × NodeId → Prop := fun a b => a.1.str ≤ b.1.str
  have : Std.Total le := ⟨fun a b => le_total a.1.str b.1.str⟩
  have : IsTrans _ le := ⟨fun a b c hab hbc => le_trans (α := String) hab hbc⟩
  let children := (childrenUpTo decls decls.length p).map (fun j => (tagAt decls j, (⟨j⟩ : NodeId)))
  have htags : (children.map (fun entry => entry.1.str)).Nodup := by
    simp only [children, List.map_map]
    apply List.Nodup.map_on
    · intro i hi j hj hij
      apply child_tag_inj hp hnodup hi hj
      exact PathSegment.ext hij
    · exact (List.nodup_range).filter _
  rw [summarizedNode_childrenSorted, List.pairwise_map]
  have hsorted : (children.insertionSort le).Pairwise le := List.pairwise_insertionSort le children
  have hne : (children.insertionSort le).Pairwise (fun a b => a.1.str ≠ b.1.str) := by
    rw [← List.pairwise_map (f := fun entry : PathSegment × NodeId => entry.1.str)]
    exact ((List.perm_insertionSort le children).map _).nodup_iff.mpr htags
  exact (hsorted.and hne).imp (fun h => lt_of_le_of_ne h.1 h.2)

end Lookup

section ClosedForm

variable [Rule R] {b : TreeBuilder R}

lemma contains_closedForm {id : NodeId} :
    b.closedForm.Contains id ↔ ∃ d, b.declarations[id.val]? = some d := by
  simp only [DescriptorTree.Contains, closedForm, List.length_mapIdx, List.getElem?_eq_some_iff]
  exact ⟨fun h => ⟨_, h, rfl⟩, fun ⟨_, h, _⟩ => h⟩

lemma desc_closedForm (id : NodeId) {d : NodeDeclaration R} (h : b.declarations[id.val]? = some d) :
    b.closedForm.desc id =
      summarizedNode b.declarations b.declarations.length id.val d := by
  simp [DescriptorTree.desc, closedForm, List.getD_eq_getElem?_getD, List.getElem?_mapIdx, h]

/-- The children of a node are the declarations that name it as their parent. -/
lemma isChild_closedForm {p c : NodeId} {tag : String} :
    b.closedForm.IsChild p c tag ↔
      c.val ∈ childrenUpTo b.declarations b.declarations.length p.val ∧
        (tagAt b.declarations c.val).str = tag := by
  rw [mem_childrenUpTo]
  constructor
  · rintro ⟨hc, hparent, htag⟩
    obtain ⟨d, hd⟩ := contains_closedForm.mp hc
    rw [desc_closedForm _ hd] at hparent htag
    rw [summarizedNode_tag] at htag
    refine ⟨⟨(List.getElem?_eq_some_iff.mp hd).1, d, hd, ?_⟩, by rwa [tagAt_eq hd]⟩
    simpa [Option.map_eq_some_iff, NodeId.ext_iff] using hparent
  · rintro ⟨⟨-, d, hd, hparent⟩, htag⟩
    refine ⟨contains_closedForm.mpr ⟨d, hd⟩, ?_, ?_⟩
    · rw [desc_closedForm _ hd]
      simp [hparent]
    · rwa [desc_closedForm _ hd, summarizedNode_tag, ← tagAt_eq hd]

/-- `childOf` finds exactly the declared child. -/
lemma childOf_closedForm (hp : Placed b.declarations)
    (hnodup : (b.declarations.map NodeDeclaration.fullPath).Nodup) {p : NodeId}
    (hcontains : b.closedForm.Contains p) (tag : String) :
    ∃ r, b.closedForm.childOf p tag = .ok r ∧ ∀ c, r = some c ↔ b.closedForm.IsChild p c tag := by
  obtain ⟨d, hd⟩ := contains_closedForm.mp hcontains
  have hget := DescriptorTree.get_eq hcontains
  rw [desc_closedForm _ hd] at hget
  let node := summarizedNode b.declarations b.declarations.length p.val d
  have hsearch := BinarySearch.search_key_iff (fun entry : PathSegment × NodeId => entry.1.str)
    (childrenSorted_lt hp hnodup b.declarations.length p.val d) tag
  have hmem : ∀ c, (∃ s, (s, c) ∈ node.childrenSorted ∧ s.str = tag) ↔
      b.closedForm.IsChild p c tag := by
    intro c
    simp only [node, summarizedNode_childrenSorted, List.mem_insertionSort, List.mem_map,
      isChild_closedForm, Prod.mk.injEq]
    constructor
    · rintro ⟨s, ⟨i, hi, rfl, rfl⟩, htag⟩
      exact ⟨hi, htag⟩
    · rintro ⟨hi, htag⟩
      exact ⟨_, ⟨c.val, hi, rfl, rfl⟩, htag⟩
  simp only [DescriptorTree.childOf, hget, ok_bind]
  cases hs : BinarySearch.search (fun entry : PathSegment × NodeId => compare entry.1.str tag)
      node.childrenSorted with
  | none =>
    refine ⟨none, rfl, fun c => ?_⟩
    simp only [reduceCtorEq, false_iff, ← hmem]
    rintro ⟨s, hs', htag⟩
    obtain ⟨i, hi⟩ := List.mem_iff_getElem?.mp hs'
    have hsome := (hsearch i).mpr (by simp only [node] at hi; rw [hi, Option.map_some, htag])
    simp only [node] at hs
    rw [hs] at hsome
    cases hsome
  | some i =>
    simp only [node] at hs
    have hi := (hsearch i).mp hs
    obtain ⟨entry, hentry, htag⟩ := Option.map_eq_some_iff.mp hi
    refine ⟨some entry.2, by simp only [index_ok hentry, ok_bind, except_pure], fun c => ?_⟩
    have hchild : b.closedForm.IsChild p entry.2 tag :=
      (hmem _).mp ⟨entry.1, List.mem_of_getElem? hentry, htag⟩
    constructor
    · rintro ⟨rfl⟩
      exact hchild
    · intro hc
      obtain ⟨hi', ht'⟩ := isChild_closedForm.mp hchild
      obtain ⟨hi'', ht''⟩ := isChild_closedForm.mp hc
      have := child_tag_inj hp hnodup hi' hi'' (PathSegment.ext (ht'.trans ht''.symm))
      rw [NodeId.ext this]

/-- A tree that `build` returns is well formed. -/
theorem wellFormed_of_build (hb : b.Valid) {tree : DescriptorTree R} (h : b.build = .ok tree) :
    tree.WellFormed := by
  obtain ⟨hdup, hacc, hnest, rfl⟩ := (build_eq_ok hb).mp h
  obtain ⟨hnodup, -⟩ := checkDuplicates_eq_ok.mp hdup
  have hplaced := hb.placed
  obtain ⟨d₀, hd₀⟩ : ∃ d, b.declarations[0]? = some d := by
    cases hdecls : b.declarations with
    | nil => exact absurd hdecls hb.declared
    | cons d decls => exact ⟨d, rfl⟩
  have hroot : d₀.parentIndex = none ∧ d₀.fullPath = [d₀.tag] := by
    rcases hplaced 0 d₀ hd₀ with ⟨hnone, -, hpath⟩ | ⟨p, e, -, hlt, -⟩
    · exact ⟨hnone, hpath⟩
    · omega
  have hparent : ∀ c p, b.closedForm.Contains c → (b.closedForm.desc c).parentId = some p →
      ∃ d e, b.declarations[c.val]? = some d ∧ b.declarations[p.val]? = some e ∧
        d.parentIndex = some p.val ∧ p.val < c.val ∧ d.fullPath = e.fullPath ++ [d.tag] := by
    intro c p hc hcp
    obtain ⟨d, hd⟩ := contains_closedForm.mp hc
    rw [desc_closedForm _ hd] at hcp
    rcases hplaced c.val d hd with ⟨hnone, -, -⟩ | ⟨q, e, hq, hlt, he, hpath⟩
    · simp [hnone] at hcp
    · obtain rfl : ⟨q⟩ = p := by simpa [hq] using hcp
      exact ⟨d, e, hd, he, hq, hlt, hpath⟩
  constructor
  case rootId_eq => rfl
  case root_contains => exact contains_closedForm.mpr ⟨d₀, hd₀⟩
  case root_path => simp [desc_closedForm ⟨0⟩ hd₀, hroot.2]
  case root_parent => simp [desc_closedForm ⟨0⟩ hd₀, hroot.1]
  case parent_spec =>
    intro c p hc hcp
    obtain ⟨d, e, hd, he, -, hlt, hpath⟩ := hparent c p hc hcp
    exact ⟨hlt, by simp [desc_closedForm _ hd, desc_closedForm _ he, hpath]⟩
  case eq_root =>
    intro c hc hcp
    obtain ⟨d, hd⟩ := contains_closedForm.mp hc
    rw [desc_closedForm _ hd, summarizedNode_parentId, Option.map_eq_none_iff] at hcp
    rcases hplaced c.val d hd with ⟨-, hzero, -⟩ | ⟨p, e, hp, -⟩
    · exact NodeId.ext hzero
    · simp [hp] at hcp
  case path_inj =>
    intro c d hc hd hpath
    obtain ⟨e, he⟩ := contains_closedForm.mp hc
    obtain ⟨f, hf⟩ := contains_closedForm.mp hd
    simp only [desc_closedForm _ he, desc_closedForm _ hf, summarizedNode_fullPath] at hpath
    have hlt : c.val < (b.declarations.map NodeDeclaration.fullPath).length := by
      simpa using (List.getElem?_eq_some_iff.mp he).1
    exact NodeId.ext ((List.getElem?_inj hlt hnodup).mp (by simp [he, hf, hpath]))
  case childOf_spec =>
    intro p hp tag
    exact childOf_closedForm hplaced hnodup hp tag
  case no_nesting =>
    intro a c ha hc hacapture hccapture hle
    obtain ⟨f, hf⟩ := contains_closedForm.mp ha
    obtain ⟨d, hd⟩ := contains_closedForm.mp hc
    have hmode : ∀ {i : ℕ} {d : NodeDeclaration R}, b.declarations[i]? = some d →
        (keptNode b.declarations i d).needs.has 3 = d.isCapture := fun hd =>
      keptNode_isCapture (checkAccessModes_eq_ok.mp hacc _ (List.mem_of_getElem? hd))
    simp only [desc_closedForm _ hf, desc_closedForm _ hd, summarizedNode_needs, summarizedNode_fullPath,
      hmode hf, hmode hd] at hacapture hccapture hle
    exact NodeId.ext (no_nesting_of_check hplaced hnodup hnest hf hd hacapture hccapture hle)
  case rule_needs =>
    intro c hc r hr i hi
    obtain ⟨d, hd⟩ := contains_closedForm.mp hc
    simp only [desc_closedForm _ hd, summarizedNode_rules, summarizedNode_needs] at hr ⊢
    have hany : d.rules.any (fun r => (Rule.needs r).has i) = true := List.any_eq_true.mpr ⟨r, hr, hi⟩
    simp [keptNode_has, toNode_has, hany]
  case children_needs =>
    intro c hc
    obtain ⟨d, hd⟩ := contains_closedForm.mp hc
    have hattrs : NodeNeeds.attrs.has 2 = false := by decide
    have htext : NodeNeeds.text.has 2 = false := by decide
    have hcapture : NodeNeeds.capture.has 2 = false := by decide
    simp [desc_closedForm _ hd, keptNode_has, toNode_has, hattrs, htext, hcapture]
  case child_keeps =>
    intro c p hc hcp
    obtain ⟨d, e, hd, he, hdp, -, -⟩ := hparent c p hc hcp
    have hne : childrenUpTo b.declarations b.declarations.length p.val ≠ [] :=
      List.ne_nil_of_mem (mem_childrenUpTo.mpr ⟨(List.getElem?_eq_some_iff.mp hd).1, d, hd, hdp⟩)
    have hattrs : NodeNeeds.attrs.has 0 = true := by decide
    have htext : NodeNeeds.text.has 1 = true := by decide
    simp [desc_closedForm _ he, keptNode_has, hne, hattrs, htext]
  case summaryNeeds_eq =>
    intro c p hc hcp
    obtain ⟨d, e, hd, he, hdp, -, -⟩ := hparent c p hc hcp
    have hneed : parentNeedsChildren b.declarations d =
        (keptNode b.declarations p.val e).needs.has 2 := by simp [parentNeedsChildren, hdp, he]
    rw [desc_closedForm _ hd, desc_closedForm _ he, summarizedNode_needs, ← hneed]
    have hlt := (List.getElem?_eq_some_iff.mp hd).1
    cases h : parentNeedsChildren b.declarations d with
    | true => simp [summarizedNode, hlt, h]
    | false => simp [summarizedNode, h, keptNode_summaryNeeds]
  case root_summaryNeeds =>
    have hneed : parentNeedsChildren b.declarations d₀ = false := by
      simp [parentNeedsChildren, hroot.1]
    simp [desc_closedForm ⟨0⟩ hd₀, summarizedNode, hneed, keptNode_summaryNeeds]

end ClosedForm

end TreeBuilder

lemma BuiltTree.valid [Rule R] (t : BuiltTree R) : t.builder.Valid :=
  TreeBuilder.valid_calls (TreeBuilder.valid_new t.rootTag) t.calls_eq

/-- The tree of a `BuiltTree` is well formed. -/
theorem BuiltTree.wellFormed [Rule R] (t : BuiltTree R) : t.tree.WellFormed :=
  TreeBuilder.wellFormed_of_build t.valid t.build_eq

end XmlOxydizer

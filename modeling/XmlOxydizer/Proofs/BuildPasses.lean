import XmlOxydizer.Library.Lists
import XmlOxydizer.Tree.Builder

/-!
# What the passes of `build` compute

The checks of `build` leave the declarations alone; the later passes turn declaration `i`
into node `i`. Here every pass is given its result in closed form, for declarations whose
parents come first.
-/

namespace XmlOxydizer

open Lists

variable {R : Type}

/-- The position of a declaration: everything but its mode and its rules. -/
def NodeDeclaration.place (d : NodeDeclaration R) : PathSegment × List PathSegment × Option ℕ :=
  (d.tag, d.fullPath, d.parentIndex)

/-- Declarations in the order in which a builder makes them: the root, then children of
earlier declarations. -/
def Placed (decls : List (NodeDeclaration R)) : Prop :=
  ∀ (i : ℕ) (d : NodeDeclaration R), decls[i]? = some d →
    (d.parentIndex = none ∧ i = 0 ∧ d.fullPath = [d.tag]) ∨
    ∃ p e, d.parentIndex = some p ∧ p < i ∧ decls[p]? = some e ∧
      d.fullPath = e.fullPath ++ [d.tag]

lemma Placed.of_place_eq {decls decls' : List (NodeDeclaration R)}
    (heq : decls'.map NodeDeclaration.place = decls.map NodeDeclaration.place)
    (h : Placed decls) : Placed decls' := by
  have hget (i : ℕ) : decls'[i]?.map NodeDeclaration.place =
      decls[i]?.map NodeDeclaration.place := by
    rw [← List.getElem?_map, ← List.getElem?_map, heq]
  intro i d hd
  obtain ⟨e, he, hplace⟩ : ∃ e, decls[i]? = some e ∧ e.place = d.place := by
    have := hget i
    rw [hd] at this
    simpa [eq_comm] using this
  simp only [NodeDeclaration.place, Prod.mk.injEq] at hplace
  obtain ⟨htag, hpath, hparent⟩ := hplace
  rcases h i e he with ⟨hnone, hi, hp⟩ | ⟨p, f, hsome, hlt, hf, hp⟩
  · exact .inl ⟨by rw [← hparent, hnone], hi, by rw [← hpath, hp, htag]⟩
  · obtain ⟨f', hf', hplace'⟩ : ∃ f', decls'[p]? = some f' ∧ f'.place = f.place := by
      have := hget p
      rw [hf] at this
      simpa using this
    simp only [NodeDeclaration.place, Prod.mk.injEq] at hplace'
    exact .inr ⟨p, f', by rw [← hparent, hsome], hlt, hf', by rw [← hpath, hp, htag, hplace'.2.1]⟩

lemma Placed.concat {decls : List (NodeDeclaration R)} (h : Placed decls) {p : ℕ}
    {e d : NodeDeclaration R} (he : decls[p]? = some e) (hparent : d.parentIndex = some p)
    (hpath : d.fullPath = e.fullPath ++ [d.tag]) : Placed (decls ++ [d]) := by
  have hp : p < decls.length := (List.getElem?_eq_some_iff.mp he).1
  intro i c hc
  rcases Nat.lt_or_ge i decls.length with hi | hi
  · rw [List.getElem?_append_left hi] at hc
    rcases h i c hc with hroot | ⟨q, f, hq, hlt, hf, hqp⟩
    · exact .inl hroot
    · exact .inr ⟨q, f, hq, hlt, by rwa [List.getElem?_append_left (by omega)], hqp⟩
  · rw [List.getElem?_append_right hi] at hc
    obtain ⟨hi0, rfl⟩ : i - decls.length = 0 ∧ d = c := by
      cases hk : i - decls.length with
      | zero => simpa [hk] using hc
      | succ k => simp [hk] at hc
    exact .inr ⟨p, e, hparent, by omega, by rwa [List.getElem?_append_left hp], hpath⟩

/-- What every builder satisfies that is made by the builder's methods. -/
structure TreeBuilder.Valid (b : TreeBuilder R) : Prop where
  stack_ne : b.parentStack ≠ []
  stack_lt : ∀ i ∈ b.parentStack, i < b.declarations.length
  declared : b.declarations ≠ []
  placed : Placed b.declarations

namespace TreeBuilder

/-! ### The calls -/

section Calls

variable {decls : List (NodeDeclaration R)} {stack : List ℕ} {limit p : ℕ} {d : NodeDeclaration R}

lemma calls_append_eq (b : TreeBuilder R) (cs ds : List (BuilderCall R)) :
    b.calls (cs ++ ds) = b.calls cs >>= (fun b' => b'.calls ds) := by
  rw [calls, List.foldlM_append]
  rfl

lemma calls_append {b b' : TreeBuilder R} {cs : List (BuilderCall R)} (h : b.calls cs = .ok b')
    (ds : List (BuilderCall R)) : b.calls (cs ++ ds) = b'.calls ds := by
  rw [calls_append_eq, h, ok_bind]

lemma calls_cons {b b' : TreeBuilder R} {c : BuilderCall R} (h : b.call c = .ok b')
    (cs : List (BuilderCall R)) : b.calls (c :: cs) = b'.calls cs := by
  rw [calls, List.foldlM_cons, h]
  rfl

lemma modifyCurrent_eq (hp : stack.getLast? = some p) (hd : decls[p]? = some d)
    (f : NodeDeclaration R → NodeDeclaration R) :
    modifyCurrent ⟨decls, stack, limit⟩ f = .ok ⟨decls.set p (f d), stack, limit⟩ := by
  simp [modifyCurrent, hp, index_ok hd]

lemma call_streaming (hp : stack.getLast? = some p) (hd : decls[p]? = some d) :
    call ⟨decls, stack, limit⟩ .streaming = .ok ⟨decls.set p { d with isCapture := false }, stack, limit⟩ :=
  modifyCurrent_eq hp hd _

lemma call_captureSubtree (hp : stack.getLast? = some p) (hd : decls[p]? = some d) :
    call ⟨decls, stack, limit⟩ .captureSubtree =
      .ok ⟨decls.set p { d with isCapture := true }, stack, limit⟩ :=
  modifyCurrent_eq hp hd _

lemma call_rule (hp : stack.getLast? = some p) (hd : decls[p]? = some d) (r : R) :
    call ⟨decls, stack, limit⟩ (.rule r) =
      .ok ⟨decls.set p { d with rules := d.rules ++ [r] }, stack, limit⟩ :=
  modifyCurrent_eq hp hd _

lemma call_node (hp : stack.getLast? = some p) (hd : decls[p]? = some d) (tag : String) :
    call ⟨decls, stack, limit⟩ (.node tag) =
      .ok ⟨decls ++ [⟨⟨tag⟩, d.fullPath ++ [⟨tag⟩], false, [], some p⟩], stack ++ [decls.length], limit⟩ := by
  simp [call, node, hp, index_ok hd]

lemma call_done (hstack : stack ≠ []) (n : ℕ) :
    call ⟨decls, stack ++ [n], limit⟩ .done = .ok ⟨decls, stack, limit⟩ := by
  have hlength := List.length_pos_iff.mpr hstack
  simp [call, done, hlength]

end Calls

lemma valid_new (rootTag : String) : (new rootTag : TreeBuilder R).Valid where
  stack_ne := by simp [new]
  stack_lt := by simp [new]
  declared := by simp [new]
  placed := by
    intro i d hd
    cases i with
    | zero =>
      simp only [new, List.getElem?_cons_zero, Option.some.injEq] at hd
      subst hd
      exact .inl ⟨rfl, rfl, rfl⟩
    | succ i => simp [new] at hd

/-- A valid builder has a current node. -/
lemma Valid.current {b : TreeBuilder R} (hb : b.Valid) :
    ∃ p d, b.parentStack.getLast? = some p ∧ b.declarations[p]? = some d := by
  obtain ⟨p, hp⟩ := Option.ne_none_iff_exists'.mp (mt List.getLast?_eq_none_iff.mp hb.stack_ne)
  exact ⟨p, _, hp, List.getElem?_eq_getElem (hb.stack_lt p (List.mem_of_getLast? hp))⟩

lemma valid_modifyCurrent {b b' : TreeBuilder R} {f : NodeDeclaration R → NodeDeclaration R}
    (hb : b.Valid) (hf : ∀ d, (f d).place = d.place) (h : b.modifyCurrent f = .ok b') :
    b'.Valid := by
  obtain ⟨decls, stack, limit⟩ := b
  obtain ⟨p, d, hp, hd⟩ : ∃ p d, stack.getLast? = some p ∧ decls[p]? = some d := hb.current
  rw [modifyCurrent_eq hp hd] at h
  obtain rfl := Except.ok.inj h
  refine ⟨hb.stack_ne, by simpa using hb.stack_lt, by simpa using hb.declared,
    hb.placed.of_place_eq ?_⟩
  obtain ⟨hlt, rfl⟩ := List.getElem?_eq_some_iff.mp hd
  have hlt' : p < (decls.map NodeDeclaration.place).length := by simpa using hlt
  have hplace : (decls.map NodeDeclaration.place)[p] = decls[p].place := List.getElem_map _
  rw [List.map_set, hf, ← hplace]
  exact List.set_getElem_self hlt'

lemma valid_node {b b' : TreeBuilder R} {tag : String} (hb : b.Valid)
    (h : b.node tag = .ok b') : b'.Valid := by
  obtain ⟨decls, stack, limit⟩ := b
  obtain ⟨p, d, hp, hd⟩ : ∃ p d, stack.getLast? = some p ∧ decls[p]? = some d := hb.current
  have hnode : node ⟨decls, stack, limit⟩ tag = _ := call_node hp hd tag
  obtain rfl := Except.ok.inj (h.symm.trans hnode)
  refine ⟨by simp, ?_, by simp, hb.placed.concat hd rfl rfl⟩
  intro i hi
  simp only [List.mem_append, List.mem_singleton, List.length_append, List.length_singleton]
    at hi ⊢
  rcases hi with hi | rfl
  · exact Nat.lt_succ_of_lt (hb.stack_lt i hi)
  · exact Nat.lt_succ_self _

lemma valid_done {b b' : TreeBuilder R} (hb : b.Valid) (h : b.done = .ok b') : b'.Valid := by
  unfold done at h
  split at h
  case isFalse => cases h
  case isTrue hlen =>
    have hb' := (Except.ok.inj h).symm
    subst hb'
    refine ⟨?_, fun i hi => hb.stack_lt i (List.mem_of_mem_dropLast hi), hb.declared, hb.placed⟩
    intro hnil
    have := congrArg List.length hnil
    simp only [List.length_dropLast, List.length_nil] at this
    omega

lemma valid_call {b b' : TreeBuilder R} {c : BuilderCall R} (hb : b.Valid)
    (h : b.call c = .ok b') : b'.Valid := by
  cases c with
  | streaming => exact valid_modifyCurrent (f := fun d => { d with isCapture := false }) hb (fun _ => rfl) h
  | captureSubtree => exact valid_modifyCurrent (f := fun d => { d with isCapture := true }) hb (fun _ => rfl) h
  | rule r => exact valid_modifyCurrent (f := fun d => { d with rules := d.rules ++ [r] }) hb (fun _ => rfl) h
  | node tag => exact valid_node hb h
  | done => exact valid_done hb h
  | captureLimit bytes =>
    have hb' := (Except.ok.inj h).symm
    subst hb'
    exact ⟨hb.stack_ne, hb.stack_lt, hb.declared, hb.placed⟩

theorem valid_calls {b b' : TreeBuilder R} {cs : List (BuilderCall R)} (hb : b.Valid)
    (h : b.calls cs = .ok b') : b'.Valid := by
  induction cs generalizing b with
  | nil => exact Except.ok.inj h ▸ hb
  | cons c cs ih =>
    obtain ⟨b₁, hc, hcs⟩ := bind_eq_ok.mp (h : b.call c >>= (fun b₁ => b₁.calls cs) = .ok b')
    exact ih (valid_call hb hc) hcs

/-! ### The passes -/

/-- The declarations before `k` whose parent is `p`. -/
def childrenUpTo (decls : List (NodeDeclaration R)) (k p : ℕ) : List ℕ :=
  (List.range k).filter (fun i => decls[i]?.bind NodeDeclaration.parentIndex == some p)

/-- The tag of declaration `i`. -/
def tagAt (decls : List (NodeDeclaration R)) (i : ℕ) : PathSegment :=
  (decls[i]?.map NodeDeclaration.tag).getD ⟨""⟩

lemma childrenUpTo_succ (decls : List (NodeDeclaration R)) (k p : ℕ) :
    childrenUpTo decls (k + 1) p = childrenUpTo decls k p ++
      if decls[k]?.bind NodeDeclaration.parentIndex = some p then [k] else [] := by
  simp only [childrenUpTo, List.range_succ, List.filter_append]
  congr 1
  by_cases h : decls[k]?.bind NodeDeclaration.parentIndex = some p <;> simp [h]

lemma mem_childrenUpTo {decls : List (NodeDeclaration R)} {k p i : ℕ} :
    i ∈ childrenUpTo decls k p ↔ i < k ∧ ∃ d, decls[i]? = some d ∧ d.parentIndex = some p := by
  simp [childrenUpTo, Option.bind_eq_some_iff]

section Passes

variable [Rule R]

/-- Node `i` once the declarations before `k` are linked to their parents. -/
def linkedNode (decls : List (NodeDeclaration R)) (k i : ℕ) (d : NodeDeclaration R) :
    DescriptorNode R :=
  { toNode d with
    childIds := (childrenUpTo decls k i).map NodeId.mk
    childrenSorted := (childrenUpTo decls k i).map (fun j => (tagAt decls j, ⟨j⟩)) }

/-- Node `i` before the summary needs are set. -/
def keptNode (decls : List (NodeDeclaration R)) (i : ℕ) (d : NodeDeclaration R) :
    DescriptorNode R :=
  propagateNeeds (sortChildren (linkedNode decls decls.length i d))

/-- Whether the parent of a declaration needs the summaries of its children. -/
def parentNeedsChildren (decls : List (NodeDeclaration R)) (d : NodeDeclaration R) : Bool :=
  match d.parentIndex with
  | none => false
  | some p => (decls[p]?.map (fun e => (keptNode decls p e).needs.contains .children)).getD false

/-- Node `i` once the summary needs of the nodes before `k` are set. -/
def summarizedNode (decls : List (NodeDeclaration R)) (k i : ℕ) (d : NodeDeclaration R) :
    DescriptorNode R :=
  if i < k ∧ parentNeedsChildren decls d then { keptNode decls i d with summaryNeeds := .all }
  else keptNode decls i d

omit [Rule R] in
/-- The node of a root is linked to nothing. -/
lemma linkChild_root {nodes : List (DescriptorNode R)} {i : ℕ} {node : DescriptorNode R}
    (hnode : index nodes i = .ok node) (hnone : node.parentId = none) : linkChild nodes i = .ok nodes := by
  simp only [linkChild, hnode, bind, Except.bind, hnone]
  rfl

omit [Rule R] in
/-- Any other node is linked to its parent. -/
lemma linkChild_child {nodes : List (DescriptorNode R)} {i : ℕ} {node parent : DescriptorNode R}
    {parentId : NodeId} (hnode : index nodes i = .ok node) (hsome : node.parentId = some parentId)
    (hparent : index nodes parentId.val = .ok parent) :
    linkChild nodes i = .ok (nodes.set parentId.val { parent with
      childIds := parent.childIds ++ [⟨i⟩]
      childrenSorted := parent.childrenSorted ++ [(node.tag, ⟨i⟩)] }) := by
  simp only [linkChild, hnode, bind, Except.bind, hsome, hparent]
  rfl

lemma linkChild_linkedNode {decls : List (NodeDeclaration R)} (hp : Placed decls) {k : ℕ}
    (hk : k < decls.length) :
    linkChild (decls.mapIdx (linkedNode decls k)) k =
      .ok (decls.mapIdx (linkedNode decls (k + 1))) := by
  have hnode : index (decls.mapIdx (linkedNode decls k)) k =
      .ok (linkedNode decls k k decls[k]) := index_ok (by simp [hk])
  have hbind : decls[k]?.bind NodeDeclaration.parentIndex = decls[k].parentIndex := by simp [hk]
  have hparentId : (linkedNode decls k k decls[k]).parentId = decls[k].parentIndex.map NodeId.mk := rfl
  rcases hp k decls[k] (List.getElem?_eq_getElem hk) with ⟨hnone, -, -⟩ | ⟨p, e, hsome, hlt, he, -⟩
  · rw [linkChild_root hnode (by rw [hparentId, hnone, Option.map_none])]
    refine congrArg Except.ok (List.mapIdx_eq_mapIdx_iff.mpr fun i hi => ?_)
    simp [linkedNode, childrenUpTo_succ, hbind, hnone]
  · have hplt : p < decls.length := by omega
    have hparent : index (decls.mapIdx (linkedNode decls k)) p =
        .ok (linkedNode decls k p decls[p]) := index_ok (by simp [hplt])
    rw [linkChild_child hnode (by rw [hparentId, hsome, Option.map_some]) hparent]
    refine congrArg Except.ok (List.ext_getElem (by simp) fun i h1 h2 => ?_)
    simp only [List.getElem_set, List.getElem_mapIdx]
    split
    · next heq =>
      subst heq
      simp [linkedNode, toNode, childrenUpTo_succ, hsome, tagAt, hk]
    · next hne => simp [linkedNode, childrenUpTo_succ, hbind, hsome, hne]

lemma link_pass {decls : List (NodeDeclaration R)} (hp : Placed decls) :
    (List.range (decls.map toNode).length).foldlM linkChild (decls.map toNode) =
      .ok (decls.mapIdx (linkedNode decls decls.length)) := by
  have hzero : decls.map toNode = decls.mapIdx (linkedNode decls 0) :=
    List.ext_getElem (by simp) (by simp [linkedNode, childrenUpTo, toNode])
  rw [List.length_map, hzero]
  exact foldlM_range_eq decls.length (fun k hk => linkChild_linkedNode hp hk)

lemma keep_pass (decls : List (NodeDeclaration R)) :
    ((decls.mapIdx (linkedNode decls decls.length)).map sortChildren).map propagateNeeds =
      decls.mapIdx (keptNode decls) := by
  apply List.ext_getElem (by simp)
  simp [keptNode]

@[simp] lemma keptNode_parentId (decls : List (NodeDeclaration R)) (i : ℕ)
    (d : NodeDeclaration R) : (keptNode decls i d).parentId = d.parentIndex.map NodeId.mk := by
  unfold keptNode propagateNeeds
  split <;> rfl

@[simp] lemma summarizedNode_parentId (decls : List (NodeDeclaration R)) (k i : ℕ)
    (d : NodeDeclaration R) :
    (summarizedNode decls k i d).parentId = d.parentIndex.map NodeId.mk := by
  unfold summarizedNode
  split <;> simp

@[simp] lemma summarizedNode_needs (decls : List (NodeDeclaration R)) (k i : ℕ)
    (d : NodeDeclaration R) : (summarizedNode decls k i d).needs = (keptNode decls i d).needs := by
  unfold summarizedNode
  split <;> rfl

omit [Rule R] in
/-- A root is not summarized for a parent. -/
lemma setSummaryNeeds_root {nodes : List (DescriptorNode R)} {i : ℕ} {node : DescriptorNode R}
    (hnode : index nodes i = .ok node) (hnone : node.parentId = none) :
    setSummaryNeeds nodes i = .ok nodes := by
  simp only [setSummaryNeeds, hnode, bind, Except.bind, hnone]
  rfl

omit [Rule R] in
/-- Any other node is summarized when its parent's rules need the children. -/
lemma setSummaryNeeds_child {nodes : List (DescriptorNode R)} {i : ℕ} {node parent : DescriptorNode R}
    {parentId : NodeId} (hnode : index nodes i = .ok node) (hsome : node.parentId = some parentId)
    (hparent : index nodes parentId.val = .ok parent) :
    setSummaryNeeds nodes i = .ok
      (if parent.needs.contains .children then nodes.set i { node with summaryNeeds := .all }
      else nodes) := by
  simp only [setSummaryNeeds, hnode, bind, Except.bind, hsome, hparent]
  split <;> rfl

lemma setSummaryNeeds_summarizedNode {decls : List (NodeDeclaration R)} (hp : Placed decls)
    {k : ℕ} (hk : k < decls.length) :
    setSummaryNeeds (decls.mapIdx (summarizedNode decls k)) k =
      .ok (decls.mapIdx (summarizedNode decls (k + 1))) := by
  have hnode : index (decls.mapIdx (summarizedNode decls k)) k =
      .ok (summarizedNode decls k k decls[k]) := index_ok (by simp [hk])
  -- round `k` changes node `k` only
  have hother : ∀ i, i ≠ k → ∀ d, summarizedNode decls (k + 1) i d = summarizedNode decls k i d := by
    intro i hi d
    have : i < k + 1 ↔ i < k := by omega
    simp only [summarizedNode, this]
  rcases hp k decls[k] (List.getElem?_eq_getElem hk) with ⟨hnone, -, -⟩ | ⟨p, e, hsome, hlt, he, -⟩
  · rw [setSummaryNeeds_root hnode (by rw [summarizedNode_parentId, hnone, Option.map_none])]
    refine congrArg Except.ok (List.mapIdx_eq_mapIdx_iff.mpr fun i hi => ?_)
    by_cases hik : i = k
    · subst hik
      simp [summarizedNode, parentNeedsChildren, hnone]
    · exact (hother i hik _).symm
  · have hplt : p < decls.length := by omega
    have hparent : index (decls.mapIdx (summarizedNode decls k)) p =
        .ok (summarizedNode decls k p decls[p]) := index_ok (by simp [hplt])
    have hneed : parentNeedsChildren decls decls[k] =
        (keptNode decls p decls[p]).needs.contains .children := by
      simp [parentNeedsChildren, hsome, hplt]
    rw [setSummaryNeeds_child hnode (by rw [summarizedNode_parentId, hsome, Option.map_some]) hparent,
      summarizedNode_needs, ← hneed]
    split
    · next hc =>
      refine congrArg Except.ok (List.ext_getElem (by simp) fun i h1 h2 => ?_)
      simp only [List.getElem_set, List.getElem_mapIdx]
      split
      · next heq =>
        subst heq
        simp [summarizedNode, hc, hsome]
      · next hne => exact (hother i (Ne.symm hne) _).symm
    · next hc =>
      refine congrArg Except.ok (List.mapIdx_eq_mapIdx_iff.mpr fun i hi => ?_)
      by_cases hik : i = k
      · subst hik
        simp [summarizedNode, hc]
      · exact (hother i hik _).symm

lemma summary_pass {decls : List (NodeDeclaration R)} (hp : Placed decls) :
    (List.range (decls.mapIdx (keptNode decls)).length).foldlM setSummaryNeeds
        (decls.mapIdx (keptNode decls)) =
      .ok (decls.mapIdx (summarizedNode decls decls.length)) := by
  have hzero : decls.mapIdx (keptNode decls) = decls.mapIdx (summarizedNode decls 0) :=
    List.ext_getElem (by simp) (by simp [summarizedNode])
  rw [List.length_mapIdx, hzero]
  exact foldlM_range_eq decls.length (fun k hk => setSummaryNeeds_summarizedNode hp hk)

end Passes

end TreeBuilder

end XmlOxydizer

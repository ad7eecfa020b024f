import XmlOxydizer.Proofs.SchemaTerms

/-!
# The macro and the builder

An invocation of `build_tree!` writes one schema term, which can be read off its expansion. Whatever a client
declares by calls on the builder, in any order that does not panic, an invocation declares as well.
-/

namespace XmlOxydizer

open Markup

variable {R : Type}

/-! ### Writing a term -/

/-- The items of a body, each with a comma behind it. -/
def itemsTokens : SchemaBody → List TokenTree
  | .nil => []
  | .leaf rule rest => rule.tokens ++ .comma :: itemsTokens rest
  | .element head content rest =>
    head.tokens ++ .braces (itemsTokens content) :: .comma :: itemsTokens rest

/-- An invocation that writes the term. -/
def Schema.tokens (s : Schema) : List TokenTree := s.head.tokens ++ [.braces (itemsTokens s.body)]

lemma writtenItems_itemsTokens (body : SchemaBody) : WrittenItems body (itemsTokens body) := by
  induction body with
  | nil => exact .nil
  | leaf rule rest ih => exact .rule rule ih
  | element head content rest ihc ihr => exact .node head ihc ihr

lemma Schema.written_tokens (s : Schema) : Written s s.tokens := .root (writtenItems_itemsTokens s.body)

/-! ### Reading a term -/

section Unique

variable {head head' : NodeHead} {body body' : SchemaBody} {cs cs' : List (BuilderCall RuleLiteral)}

/-- The calls for the items of a body end with its `done`. -/
lemma modeCalls_inj (htag : head.tag = head'.tag)
    (h : head.modeCalls ++ (emitted id body ++ .done :: cs) =
      head'.modeCalls ++ (emitted id body' ++ .done :: cs')) :
    head = head' ∧ emitted id body ++ .done :: cs = emitted id body' ++ .done :: cs' := by
  obtain ⟨tag, mode⟩ := head
  obtain ⟨tag', mode'⟩ := head'
  obtain rfl : tag = tag' := htag
  have hitems : ∀ (m : AccessMode) (body : SchemaBody) (cs cs' : List (BuilderCall RuleLiteral)),
      emitted id body ++ .done :: cs ≠ m.call :: cs' := by
    intro m body cs cs'
    cases m <;> cases body <;> simp [emitted, AccessMode.call]
  cases mode with
  | none =>
    cases mode' with
    | none => exact ⟨rfl, h⟩
    | some m' => exact absurd h (hitems m' body cs _)
  | some m =>
    cases mode' with
    | none => exact absurd h.symm (hitems m body' cs' _)
    | some m' =>
      have hcons : (m.call : BuilderCall RuleLiteral) :: (emitted id body ++ .done :: cs) =
          m'.call :: (emitted id body' ++ .done :: cs') := h
      obtain ⟨hcall, hrest⟩ := List.cons.inj hcons
      refine ⟨?_, hrest⟩
      cases m <;> cases m' <;> first | rfl | cases hcall

/-- The body can be read off its calls. -/
lemma emitted_inj (h : emitted id body ++ .done :: cs = emitted id body' ++ .done :: cs') :
    body = body' ∧ cs = cs' := by
  induction body generalizing body' cs cs' with
  | nil =>
    cases body' with
    | nil => exact ⟨rfl, (List.cons.inj h).2⟩
    | leaf rule rest => cases (List.cons.inj h).1
    | element head content rest => cases (List.cons.inj h).1
  | leaf rule rest ih =>
    cases body' with
    | nil => cases (List.cons.inj h).1
    | element head content rest => cases (List.cons.inj h).1
    | leaf rule' rest' =>
      obtain ⟨hrule, hrest⟩ := List.cons.inj h
      obtain rfl : rule = rule' := BuilderCall.rule.inj hrule
      obtain ⟨rfl, hcs⟩ := ih hrest
      exact ⟨rfl, hcs⟩
  | element head content rest ihc ihr =>
    cases body' with
    | nil => cases (List.cons.inj h).1
    | leaf rule rest => cases (List.cons.inj h).1
    | element head' content' rest' =>
      simp only [emitted, List.cons_append, List.append_assoc] at h
      obtain ⟨hnode, hmore⟩ := List.cons.inj h
      obtain ⟨rfl, hinner⟩ := modeCalls_inj (BuilderCall.node.inj hnode) hmore
      obtain ⟨rfl, hafter⟩ := ihc hinner
      obtain ⟨rfl, hcs⟩ := ihr hafter
      exact ⟨rfl, hcs⟩

end Unique

lemma Schema.eq_of_emitted {s s' : Schema} (htag : s.head.tag = s'.head.tag)
    (hcalls : s.emitted id = s'.emitted id) : s = s' := by
  obtain ⟨head, body⟩ := s
  obtain ⟨head', body'⟩ := s'
  have hdone := congrArg (· ++ [BuilderCall.done]) hcalls
  simp only [Schema.emitted, List.append_assoc] at hdone
  obtain ⟨hhead, hmore⟩ := modeCalls_inj htag hdone
  obtain ⟨hbody, -⟩ := emitted_inj hmore
  obtain rfl : head = head' := hhead
  obtain rfl : body = body' := hbody
  rfl

/-- An invocation of `build_tree!` that compiles writes exactly one term, and the invocations with the same
expansion are those that write the same term. -/
theorem expansion_faithful {tokens : List TokenTree} {expansion : String × List (BuilderCall RuleLiteral)}
    (h : expand id tokens = some expansion) (tokens' : List TokenTree) :
    ∃ s, {s' | Written s' tokens} = {s} ∧ (expand id tokens' = some expansion ↔ Written s tokens') := by
  obtain ⟨s, hs, htag, hcalls⟩ := expand_eq_some_iff.mp h
  have hexpand : ∀ {us}, Written s us → expand id us = some expansion := by
    intro us hus
    exact expand_eq_some_iff.mpr ⟨s, hus, htag, hcalls⟩
  have hunique : ∀ {us}, expand id us = some expansion → ∀ s', Written s' us → s' = s := by
    intro us heq s' hs'
    have hexpand' : expand id us = some (s'.head.tag, s'.emitted id) :=
      expand_eq_some_iff.mpr ⟨s', hs', rfl, rfl⟩
    obtain ⟨htag', hcalls'⟩ := Prod.mk.inj (Option.some.inj (hexpand'.symm.trans heq))
    exact Schema.eq_of_emitted (htag'.trans htag.symm) (hcalls'.trans hcalls.symm)
  refine ⟨s, ?_, ?_⟩
  · ext s'
    constructor
    · exact hunique h s'
    · rintro rfl
      exact hs
  · constructor
    · intro heq
      obtain ⟨s', hs', -⟩ := expand_eq_some_iff.mp heq
      rwa [← hunique heq s' hs']
    · exact hexpand

theorem expansion_faithful_sample : ∃ s, {s' | Written s' listTokens} = {s} ∧ s = listSchema ∧
    (expand id listSchema.tokens = some (listSchema.head.tag, listSchema.emitted id) ↔
      Written listSchema listSchema.tokens) := by
  have hexpand : expand id listTokens = some (listSchema.head.tag, listSchema.emitted id) :=
    expand_eq_some_iff.mpr ⟨listSchema, listTokens_written, rfl, rfl⟩
  obtain ⟨s, hs, hsame⟩ := expansion_faithful hexpand listSchema.tokens
  have hlist : listSchema ∈ {s' | Written s' listTokens} := listTokens_written
  rw [hs, Set.mem_singleton_iff] at hlist
  subst hlist
  exact ⟨_, hs, rfl, hsame⟩

/-! ### Calls in any order -/

section Declarable

variable {value : RuleLiteral → R} {decls : List (NodeDeclaration R)} {p : ℕ} {d : NodeDeclaration R}

/-- A node with or without a capture, as the macro writes it. -/
def NodeHead.ofCapture (tag : String) (capture : Bool) : NodeHead := ⟨tag, if capture then some .capture else none⟩

/-- The declarations once node `p` has the mode and the items. -/
def declaredIn (value : RuleLiteral → R) (decls : List (NodeDeclaration R)) (p : ℕ) (d : NodeDeclaration R)
    (capture : Bool) (body : SchemaBody) : List (NodeDeclaration R) :=
  decls.set p { d with isCapture := capture, rules := d.rules ++ body.leaves.map value } ++
    declared value d.fullPath p decls.length body

lemma declaredIn_nil (hd : decls[p]? = some d) : declaredIn value decls p d d.isCapture .nil = decls := by
  have hset : decls.set p d = decls := by
    rw [← (List.getElem?_eq_some_iff.mp hd).2, List.set_getElem_self]
  simp [declaredIn, Forest.leaves, declared, hset]

lemma declaredIn_mode (mode capture : Bool) (body : SchemaBody) :
    declaredIn value (decls.set p { d with isCapture := mode }) p { d with isCapture := mode } capture body =
      declaredIn value decls p d capture body := by
  simp [declaredIn]

lemma declaredIn_rule (literal : RuleLiteral) (capture : Bool) (body : SchemaBody) :
    declaredIn value (decls.set p { d with rules := d.rules ++ [value literal] }) p
        { d with rules := d.rules ++ [value literal] } capture body =
      declaredIn value decls p d capture (.leaf literal body) := by
  simp [declaredIn, Forest.leaves, declared]

lemma declaredIn_concat (tag : String) (inner : Bool) (content : SchemaBody) :
    declaredIn value (decls ++ [⟨⟨tag⟩, d.fullPath ++ [⟨tag⟩], false, [], some p⟩]) decls.length
        ⟨⟨tag⟩, d.fullPath ++ [⟨tag⟩], false, [], some p⟩ inner content =
      decls ++ (NodeHead.ofCapture tag inner).declaration value d.fullPath (some p) content ::
        declared value (d.fullPath ++ [⟨tag⟩]) decls.length (decls.length + 1) content := by
  cases inner <;> simp [declaredIn, NodeHead.declaration, NodeHead.ofCapture]

lemma declaredIn_node (hd : decls[p]? = some d) (tag : String) (inner capture : Bool)
    (content rest : SchemaBody) :
    declaredIn value (decls ++ (NodeHead.ofCapture tag inner).declaration value d.fullPath (some p) content ::
        declared value (d.fullPath ++ [⟨tag⟩]) decls.length (decls.length + 1) content) p d capture rest =
      declaredIn value decls p d capture (.element (.ofCapture tag inner) content rest) := by
  have hlt := (List.getElem?_eq_some_iff.mp hd).1
  rw [declaredIn, declaredIn, List.set_append_left _ _ hlt, List.append_assoc, List.length_append,
    List.length_cons, ← Nat.add_assoc, Nat.add_right_comm decls.length]
  rfl

/-- The calls end with these declarations, or ascend with them from the node. -/
def LeavesNode (b : TreeBuilder R) (decls : List (NodeDeclaration R)) (stack : List ℕ)
    (cs : List (BuilderCall R)) : Prop :=
  b.declarations = decls ∨
    ∃ limit more, .done :: more <:+ cs ∧ TreeBuilder.calls ⟨decls, stack, limit⟩ (.done :: more) = .ok b

variable {cs cs' : List (BuilderCall R)} {stack : List ℕ} {limit : ℕ} {b : TreeBuilder R}

lemma LeavesNode.mono (h : LeavesNode b decls stack cs) (hle : cs <:+ cs') : LeavesNode b decls stack cs' := by
  rcases h with hend | ⟨limit, more, hmore, hdone⟩
  · exact .inl hend
  · exact .inr ⟨limit, more, hmore.trans hle, hdone⟩

/-- Calls that start in a node set its mode and declare items of it until they leave it. -/
theorem leavesNode_calls (hvalue : ∀ rule, .rule rule ∈ cs → ∃ literal, value literal = rule)
    (hp : stack.getLast? = some p) (hd : decls[p]? = some d)
    (h : TreeBuilder.calls ⟨decls, stack, limit⟩ cs = .ok b) :
    ∃ capture body, LeavesNode b (declaredIn value decls p d capture body) stack cs := by
  -- what follows the `done` of a child is shorter than the calls from the child on
  induction hlen : cs.length using Nat.strong_induction_on generalizing cs decls stack p d limit with
  | _ n ih =>
  subst hlen
  cases cs with
  | nil =>
    obtain rfl := Except.ok.inj h
    exact ⟨d.isCapture, .nil, .inl (declaredIn_nil hd).symm⟩
  | cons c cs =>
    have hlt := (List.getElem?_eq_some_iff.mp hd).1
    have hmore : ∀ rule, .rule rule ∈ cs → ∃ literal, value literal = rule :=
      fun rule hrule => hvalue rule (List.mem_cons_of_mem c hrule)
    have hshort : cs.length < (c :: cs).length := Nat.lt_succ_self _
    have hle : cs <:+ c :: cs := List.suffix_cons _ _
    cases c with
    | streaming =>
      rw [TreeBuilder.calls_cons (TreeBuilder.call_streaming hp hd)] at h
      obtain ⟨capture, body, hbody⟩ := ih _ hshort hmore hp (List.getElem?_set_self hlt) h rfl
      rw [declaredIn_mode] at hbody
      exact ⟨capture, body, hbody.mono hle⟩
    | captureSubtree =>
      rw [TreeBuilder.calls_cons (TreeBuilder.call_captureSubtree hp hd)] at h
      obtain ⟨capture, body, hbody⟩ := ih _ hshort hmore hp (List.getElem?_set_self hlt) h rfl
      rw [declaredIn_mode] at hbody
      exact ⟨capture, body, hbody.mono hle⟩
    | rule r =>
      obtain ⟨literal, rfl⟩ := hvalue r List.mem_cons_self
      rw [TreeBuilder.calls_cons (TreeBuilder.call_rule hp hd _)] at h
      obtain ⟨capture, body, hbody⟩ := ih _ hshort hmore hp (List.getElem?_set_self hlt) h rfl
      rw [declaredIn_rule] at hbody
      exact ⟨capture, .leaf literal body, hbody.mono hle⟩
    | captureLimit bytes =>
      have hcs : TreeBuilder.calls ⟨decls, stack, bytes⟩ cs = .ok b := h
      obtain ⟨capture, body, hbody⟩ := ih _ hshort hmore hp hd hcs rfl
      exact ⟨capture, body, hbody.mono hle⟩
    | done => exact ⟨d.isCapture, .nil, .inr ⟨limit, cs, List.suffix_rfl, by rwa [declaredIn_nil hd]⟩⟩
    | node tag =>
      have hstack : stack ≠ [] := by
        rintro rfl
        cases hp
      have hd' : ∀ more, (decls ++ more)[p]? = some d := fun more => (List.getElem?_append_left hlt).trans hd
      rw [TreeBuilder.calls_cons (TreeBuilder.call_node hp hd tag)] at h
      obtain ⟨inner, content, hcontent⟩ :=
        ih _ hshort hmore (List.getLast?_concat ..) (List.getElem?_concat_length ..) h rfl
      rw [declaredIn_concat] at hcontent
      rcases hcontent with hend | ⟨limit', more, hsuffix, hdone⟩
      · refine ⟨d.isCapture, .element (.ofCapture tag inner) content .nil, .inl ?_⟩
        rw [← declaredIn_node hd, declaredIn_nil (hd' _), hend]
      · -- the items behind the child
        rw [TreeBuilder.calls_cons (TreeBuilder.call_done hstack _)] at hdone
        have hbehind : more <:+ cs := (List.suffix_cons _ _).trans hsuffix
        have hless : more.length < (BuilderCall.node tag :: cs).length := lt_of_le_of_lt hbehind.length_le hshort
        obtain ⟨capture, rest, hrest⟩ :=
          ih _ hless (fun rule hrule => hmore rule (hbehind.subset hrule)) hp (hd' _) hdone rfl
        rw [declaredIn_node hd] at hrest
        exact ⟨capture, .element (.ofCapture tag inner) content rest, hrest.mono (hbehind.trans hle)⟩

/-- Whatever calls on a builder declare, in any order that does not panic, a schema term declares as well, if
its rules can be written. An invocation of `build_tree!` then has the value that `build` returns, with the
default capture limit. -/
theorem builder_expressible [Rule R] {rootTag : String}
    (hcalls : (TreeBuilder.new rootTag).calls cs = .ok b)
    (hvalue : ∀ rule, .rule rule ∈ cs → ∃ literal, value literal = rule) :
    ∃ s tokens, Written s tokens ∧ s.head.tag = rootTag ∧ s.declarations value = b.declarations ∧
      buildTree value tokens = some (TreeBuilder.build { b with captureMemoryLimit := 64 * 1024 * 1024 }) := by
  obtain ⟨capture, body, hend⟩ := leavesNode_calls (p := 0) hvalue rfl rfl hcalls
  rcases hend with hdecls | ⟨limit, more, -, hdone⟩
  case inr => cases hdone
  let s : Schema := ⟨.ofCapture rootTag capture, body⟩
  have heq : s.declarations value = b.declarations := by
    rw [hdecls]
    cases capture <;> rfl
  refine ⟨s, s.tokens, s.written_tokens, rfl, heq, ?_⟩
  rw [buildTree_written value s.written_tokens, heq]
  rfl

end Declarable

/-- A child declared before the mode and the rule of the root, and never left. -/
def looseCalls : List (BuilderCall Probe) :=
  [.node "item", .captureSubtree, .rule ⟨.all, true⟩, .done, .rule ⟨.all, true⟩, .streaming, .captureLimit 10,
    .node "box"]

def looseBuilder : TreeBuilder Probe where
  declarations :=
    [⟨⟨"list"⟩, [⟨"list"⟩], false, [⟨.all, true⟩], none⟩,
      ⟨⟨"item"⟩, [⟨"list"⟩, ⟨"item"⟩], true, [⟨.all, true⟩], some 0⟩,
      ⟨⟨"box"⟩, [⟨"list"⟩, ⟨"box"⟩], false, [], some 0⟩]
  parentStack := [0, 2]
  captureMemoryLimit := 10

theorem builder_expressible_sample : ∃ s tokens, Written s tokens ∧ s.head.tag = "list" ∧
    s.declarations (fun _ => ⟨.all, true⟩) = looseBuilder.declarations ∧
      buildTree (fun _ => ⟨.all, true⟩) tokens =
        some (TreeBuilder.build { looseBuilder with captureMemoryLimit := 64 * 1024 * 1024 }) := by
  have hcalls : (TreeBuilder.new "list").calls looseCalls = .ok looseBuilder := rfl
  apply builder_expressible hcalls
  intro rule hrule
  refine ⟨emptyLiteral "All", ?_⟩
  simp only [looseCalls, List.mem_cons, BuilderCall.rule.injEq, reduceCtorEq, List.not_mem_nil, or_false,
    false_or, or_self] at hrule
  exact hrule.symm

end XmlOxydizer

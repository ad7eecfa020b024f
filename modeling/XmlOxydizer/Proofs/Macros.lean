import XmlOxydizer.Macros
import XmlOxydizer.Proofs.Schemas

/-!
# Expansions of `build_tree!`

A schema term is a root and a forest of child nodes and rules. The macro accepts exactly the token trees that
write such a term, and the calls of its expansion declare the nodes of the term in preorder: a child is left
by one `done`, so that what follows it belongs to the node around it.
-/

namespace XmlOxydizer

open Markup

variable {R : Type}

/-! ### Schema terms and how they are written -/

inductive AccessMode
  | streaming
  | capture
  deriving DecidableEq

def AccessMode.keyword : AccessMode → String
  | .streaming => "streaming"
  | .capture => "capture"

/-- The tag of a node and the mode that is written behind it. -/
structure NodeHead where
  tag : String
  mode : Option AccessMode

/-- The rules and the child nodes between the braces of a node, in written order. -/
abbrev SchemaBody := Forest NodeHead RuleLiteral

structure Schema where
  head : NodeHead
  body : SchemaBody

def RuleLiteral.tokens (rule : RuleLiteral) : List TokenTree :=
  (rule.path.map TokenTree.ident).intersperse .pathSep ++ [.braces rule.fields]

def NodeHead.tokens (head : NodeHead) : List TokenTree :=
  .literal head.tag :: (head.mode.map (fun mode => TokenTree.ident mode.keyword)).toList

/-- Items are separated by commas, and the last one may have a comma behind it. -/
inductive WrittenItems : SchemaBody → List TokenTree → Prop
  | nil : WrittenItems .nil []
  | lastRule (rule : RuleLiteral) : WrittenItems (.leaf rule .nil) rule.tokens
  | rule (rule : RuleLiteral) {rest : SchemaBody} {ts : List TokenTree} (hrest : WrittenItems rest ts) :
      WrittenItems (.leaf rule rest) (rule.tokens ++ .comma :: ts)
  | lastNode (head : NodeHead) {content : SchemaBody} {inner : List TokenTree}
      (hcontent : WrittenItems content inner) :
      WrittenItems (.element head content .nil) (head.tokens ++ [.braces inner])
  | node (head : NodeHead) {content rest : SchemaBody} {inner ts : List TokenTree}
      (hcontent : WrittenItems content inner) (hrest : WrittenItems rest ts) :
      WrittenItems (.element head content rest) (head.tokens ++ .braces inner :: .comma :: ts)

/-- The token trees write the schema term. -/
inductive Written (s : Schema) : List TokenTree → Prop
  | root {inner : List TokenTree} (hbody : WrittenItems s.body inner) :
      Written s (s.head.tokens ++ [.braces inner])

/-! ### What a term declares -/

/-- The declaration of a node below the path `above`. Without a mode it is streaming. -/
def NodeHead.declaration (value : RuleLiteral → R) (head : NodeHead) (above : List PathSegment)
    (parent : Option ℕ) (content : SchemaBody) : NodeDeclaration R where
  tag := ⟨head.tag⟩
  fullPath := above ++ [⟨head.tag⟩]
  isCapture := decide (head.mode = some .capture)
  rules := content.leaves.map value
  parentIndex := parent

/-- The nodes between the braces of node `parent` at the path `above`, in preorder, when the first of them is
declaration number `next`. -/
def declared (value : RuleLiteral → R) (above : List PathSegment) (parent next : ℕ) :
    SchemaBody → List (NodeDeclaration R)
  | .nil => []
  | .leaf _ rest => declared value above parent next rest
  | .element head content rest =>
    let inner := declared value (above ++ [⟨head.tag⟩]) next (next + 1) content
    head.declaration value above (some parent) content ::
      (inner ++ declared value above parent (next + 1 + inner.length) rest)

/-- All nodes of a schema term, in preorder. -/
def Schema.declarations (value : RuleLiteral → R) (s : Schema) : List (NodeDeclaration R) :=
  s.head.declaration value [] none s.body :: declared value [⟨s.head.tag⟩] 0 1 s.body

/-! ### Builder calls for a term -/

def AccessMode.call : AccessMode → BuilderCall R
  | .streaming => .streaming
  | .capture => .captureSubtree

def NodeHead.modeCalls (head : NodeHead) : List (BuilderCall R) := (head.mode.map AccessMode.call).toList

/-- The calls for the items of a body. -/
def emitted (value : RuleLiteral → R) : SchemaBody → List (BuilderCall R)
  | .nil => []
  | .leaf rule rest => .rule (value rule) :: emitted value rest
  | .element head content rest =>
    .node head.tag :: (head.modeCalls ++ (emitted value content ++ .done :: emitted value rest))

/-- The calls for a schema term. -/
def Schema.emitted (value : RuleLiteral → R) (s : Schema) : List (BuilderCall R) :=
  s.head.modeCalls ++ XmlOxydizer.emitted value s.body

/-- The mode of a node in fluent calls. Streaming may be left out. -/
inductive FluentMode : Option AccessMode → List (BuilderCall R) → Prop
  | capture : FluentMode (some .capture) [.captureSubtree]
  | streaming {mode : Option AccessMode} (h : mode ≠ some .capture) : FluentMode mode [.streaming]
  | omitted {mode : Option AccessMode} (h : mode ≠ some .capture) : FluentMode mode []

/-- The items of a body as fluent calls. -/
inductive FluentItems (value : RuleLiteral → R) : SchemaBody → List (BuilderCall R) → Prop
  | nil : FluentItems value .nil []
  | rule (rule : RuleLiteral) {rest : SchemaBody} {cs : List (BuilderCall R)}
      (hrest : FluentItems value rest cs) : FluentItems value (.leaf rule rest) (.rule (value rule) :: cs)
  | node (head : NodeHead) {content rest : SchemaBody} {mode inner cs : List (BuilderCall R)}
      (hmode : FluentMode head.mode mode) (hcontent : FluentItems value content inner)
      (hrest : FluentItems value rest cs) :
      FluentItems value (.element head content rest) (.node head.tag :: (mode ++ (inner ++ .done :: cs)))

/-- The schema term as fluent calls on the builder of its root. -/
inductive Fluent (value : RuleLiteral → R) (s : Schema) : List (BuilderCall R) → Prop
  | root {mode cs : List (BuilderCall R)} (hmode : FluentMode s.head.mode mode)
      (hbody : FluentItems value s.body cs) : Fluent value s (mode ++ cs)

/-- A child node anywhere in a body, with the calls that come before its own. -/
inductive ChildAt (value : RuleLiteral → R) : SchemaBody → List (BuilderCall R) → NodeHead → SchemaBody → Prop
  | here (head : NodeHead) (content rest : SchemaBody) :
      ChildAt value (.element head content rest) [] head content
  | inside (head : NodeHead) {content rest : SchemaBody} {before : List (BuilderCall R)} {child : NodeHead}
      {inner : SchemaBody} (h : ChildAt value content before child inner) :
      ChildAt value (.element head content rest) (.node head.tag :: (head.modeCalls ++ before)) child inner
  | afterNode (head : NodeHead) {content rest : SchemaBody} {before : List (BuilderCall R)} {child : NodeHead}
      {inner : SchemaBody} (h : ChildAt value rest before child inner) :
      ChildAt value (.element head content rest)
        (.node head.tag :: (head.modeCalls ++ (emitted value content ++ .done :: before))) child inner
  | afterRule (rule : RuleLiteral) {rest : SchemaBody} {before : List (BuilderCall R)} {child : NodeHead}
      {inner : SchemaBody} (h : ChildAt value rest before child inner) :
      ChildAt value (.leaf rule rest) (.rule (value rule) :: before) child inner

/-- These calls declare a child of the current node, and make the node current again. -/
def TreeBuilder.ComesBack (b : TreeBuilder R) (cs : List (BuilderCall R)) : Prop :=
  ∃ b' d, b.calls cs = .ok b' ∧ b'.parentStack = b.parentStack ∧
    b'.declarations[b.declarations.length]? = some d ∧ d.parentIndex = b'.parentStack.getLast?

/-! ### What the macro accepts -/

section Expansion

variable {value : RuleLiteral → R} {body : SchemaBody} {tokens rest : List TokenTree} {rule : RuleLiteral}

/-- A struct literal is matched exactly where one is written. -/
lemma matchRule_eq_some_iff : matchRule tokens = some (rule, rest) ↔ tokens = rule.tokens ++ rest := by
  obtain ⟨path, fields, hpath⟩ := rule
  constructor
  · intro h
    fun_induction matchRule tokens generalizing path fields with
    | case1 name tokens rule' rest' heq ih =>
      cases h
      obtain ⟨path', fields', hpath'⟩ := rule'
      have htokens := ih path' fields' hpath' heq
      obtain ⟨first, names, rfl⟩ := List.exists_cons_of_ne_nil hpath'
      rw [htokens]
      rfl
    | case2 => cases h
    | case3 name fields' rest' =>
      cases h
      rfl
    | case4 => cases h
  · rintro rfl
    induction path with
    | nil => exact absurd rfl hpath
    | cons name names ih =>
      cases names with
      | nil => rfl
      | cons name' names =>
        have hrest := ih (List.cons_ne_nil _ _)
        simp only [RuleLiteral.tokens, List.map_cons, List.intersperse_cons_cons, List.cons_append] at hrest ⊢
        rw [matchRule, hrest]

@[simp] lemma expandMode_keyword (mode : AccessMode) :
    expandMode mode.keyword = some (mode.call : BuilderCall R) := by
  cases mode <;> rfl

lemma mode_of_expandMode {keyword : String} {c : BuilderCall R} (h : expandMode keyword = some c) :
    ∃ mode : AccessMode, mode.keyword = keyword ∧ mode.call = c := by
  unfold expandMode at h
  split at h
  case h_1 => exact ⟨.streaming, rfl, Option.some.inj h⟩
  case h_2 => exact ⟨.capture, rfl, Option.some.inj h⟩
  case h_3 => cases h

/-- The tokens of a struct literal begin with a name, so that no arm for nodes matches them. -/
lemma RuleLiteral.tokens_eq (rule : RuleLiteral) (rest : List TokenTree) :
    ∃ name ts, rule.tokens ++ rest = .ident name :: ts := by
  obtain ⟨path, fields, hpath⟩ := rule
  obtain ⟨name, names, rfl⟩ := List.exists_cons_of_ne_nil hpath
  cases names with
  | nil => exact ⟨name, _, rfl⟩
  | cons name' names => exact ⟨name, _, rfl⟩

variable (value) in
lemma expandItems_rule (rule : RuleLiteral) (ts : List TokenTree) :
    expandItems value (rule.tokens ++ .comma :: ts) =
      (expandItems value ts).map (fun more => .rule (value rule) :: more) := by
  obtain ⟨name, us, hus⟩ := rule.tokens_eq (.comma :: ts)
  have hmatch : matchRule (.ident name :: us) = some (rule, .comma :: ts) := matchRule_eq_some_iff.mpr hus.symm
  rw [hus, expandItems.eq_6 _ _ (by simp) (by simp) (by simp) (by simp) (by simp)]
  split
  case h_1 rule' ts' heq =>
    rw [hmatch] at heq
    cases heq
    cases expandItems value ts <;> rfl
  case h_2 rule' heq =>
    rw [hmatch] at heq
    cases heq
  case h_3 hne _ => exact absurd hmatch (hne rule ts)

variable (value) in
lemma expandItems_lastRule (rule : RuleLiteral) :
    expandItems value rule.tokens = some [.rule (value rule)] := by
  obtain ⟨name, us, hus⟩ := rule.tokens_eq []
  have hmatch : matchRule (.ident name :: us) = some (rule, []) := matchRule_eq_some_iff.mpr hus.symm
  rw [List.append_nil] at hus
  rw [hus, expandItems.eq_6 _ _ (by simp) (by simp) (by simp) (by simp) (by simp)]
  split
  case h_1 rule' ts' heq =>
    rw [hmatch] at heq
    cases heq
  case h_2 rule' heq =>
    rw [hmatch] at heq
    cases heq
    rfl
  case h_3 hne hnil => exact absurd hmatch (hnil rule)

variable (value) in
/-- The expansion of the items of a body. -/
theorem expandItems_written {ts : List TokenTree} (h : WrittenItems body ts) :
    expandItems value ts = some (emitted value body) := by
  induction h with
  | nil => rw [expandItems, emitted]
  | lastRule rule => rw [expandItems_lastRule, emitted, emitted]
  | rule rule hrest ih => rw [expandItems_rule, ih, emitted, Option.map_some]
  | lastNode head hcontent ih =>
    obtain ⟨tag, mode⟩ := head
    cases mode with
    | none => simp [NodeHead.tokens, NodeHead.modeCalls, expandItems, ih, emitted]
    | some mode => simp [NodeHead.tokens, NodeHead.modeCalls, expandItems, ih, emitted]
  | node head hcontent hrest ihc ihr =>
    obtain ⟨tag, mode⟩ := head
    cases mode with
    | none => simp [NodeHead.tokens, NodeHead.modeCalls, expandItems, ihc, ihr, emitted]
    | some mode => simp [NodeHead.tokens, NodeHead.modeCalls, expandItems, ihc, ihr, emitted]

/-- What the arms for items accept is written as the items of a body. -/
theorem written_of_expandItems {ts : List TokenTree} {cs : List (BuilderCall R)}
    (h : expandItems value ts = some cs) : ∃ body, WrittenItems body ts ∧ cs = emitted value body := by
  -- the cases are the arms in the order of the source
  fun_induction expandItems value ts generalizing cs with
  | case1 =>
    cases h
    exact ⟨.nil, .nil, rfl⟩
  | case2 tag keyword inner rest ihc ihr =>
    simp only [Option.bind_eq_bind, Option.bind_eq_some_iff, Option.pure_def, Option.some.injEq] at h
    obtain ⟨access, haccess, child, hchild, more, hmore, rfl⟩ := h
    obtain ⟨mode, rfl, rfl⟩ := mode_of_expandMode haccess
    obtain ⟨content, hcontent, rfl⟩ := ihc hchild
    obtain ⟨items, hitems, rfl⟩ := ihr hmore
    exact ⟨_, .node ⟨tag, some mode⟩ hcontent hitems, rfl⟩
  | case3 tag keyword inner ihc =>
    simp only [Option.bind_eq_bind, Option.bind_eq_some_iff, Option.pure_def, Option.some.injEq] at h
    obtain ⟨access, haccess, child, hchild, rfl⟩ := h
    obtain ⟨mode, rfl, rfl⟩ := mode_of_expandMode haccess
    obtain ⟨content, hcontent, rfl⟩ := ihc hchild
    exact ⟨_, .lastNode ⟨tag, some mode⟩ hcontent, rfl⟩
  | case4 tag inner rest ihc ihr =>
    simp only [Option.bind_eq_bind, Option.bind_eq_some_iff, Option.pure_def, Option.some.injEq] at h
    obtain ⟨child, hchild, more, hmore, rfl⟩ := h
    obtain ⟨content, hcontent, rfl⟩ := ihc hchild
    obtain ⟨items, hitems, rfl⟩ := ihr hmore
    exact ⟨_, .node ⟨tag, none⟩ hcontent hitems, rfl⟩
  | case5 tag inner ihc =>
    simp only [Option.bind_eq_bind, Option.bind_eq_some_iff, Option.pure_def, Option.some.injEq] at h
    obtain ⟨child, hchild, rfl⟩ := h
    obtain ⟨content, hcontent, rfl⟩ := ihc hchild
    exact ⟨_, .lastNode ⟨tag, none⟩ hcontent, rfl⟩
  | case6 tokens _ _ _ _ _ rule rest hrule ih =>
    simp only [Option.bind_eq_bind, Option.bind_eq_some_iff, Option.pure_def, Option.some.injEq] at h
    obtain ⟨more, hmore, rfl⟩ := h
    obtain ⟨items, hitems, rfl⟩ := ih hmore
    rw [matchRule_eq_some_iff.mp hrule]
    exact ⟨_, .rule rule hitems, rfl⟩
  | case7 tokens _ _ _ _ _ rule hrule =>
    cases h
    rw [matchRule_eq_some_iff.mp hrule, List.append_nil]
    exact ⟨_, .lastRule rule, rfl⟩
  | case8 => cases h

/-- An invocation compiles exactly when it writes a schema term, and then emits the calls for it. -/
theorem expand_eq_some_iff {tag : String} {cs : List (BuilderCall R)} :
    expand value tokens = some (tag, cs) ↔
      ∃ s : Schema, Written s tokens ∧ s.head.tag = tag ∧ s.emitted value = cs := by
  constructor
  · intro h
    unfold expand at h
    split at h
    case h_1 root keyword inner =>
      simp only [Option.bind_eq_bind, Option.bind_eq_some_iff, Option.pure_def, Option.some.injEq,
        Prod.mk.injEq] at h
      obtain ⟨access, haccess, items, hitems, rfl, rfl⟩ := h
      obtain ⟨mode, rfl, rfl⟩ := mode_of_expandMode haccess
      obtain ⟨body, hbody, rfl⟩ := written_of_expandItems hitems
      exact ⟨⟨⟨root, some mode⟩, body⟩, .root hbody, rfl, rfl⟩
    case h_2 root inner =>
      simp only [Option.bind_eq_bind, Option.bind_eq_some_iff, Option.pure_def, Option.some.injEq,
        Prod.mk.injEq] at h
      obtain ⟨items, hitems, rfl, rfl⟩ := h
      obtain ⟨body, hbody, rfl⟩ := written_of_expandItems hitems
      exact ⟨⟨⟨root, none⟩, body⟩, .root hbody, rfl, rfl⟩
    case h_3 => cases h
  · rintro ⟨⟨⟨root, mode⟩, body⟩, ⟨hbody⟩, rfl, rfl⟩
    have hitems := expandItems_written value hbody
    cases mode with
    | none => simp [NodeHead.tokens, NodeHead.modeCalls, Schema.emitted, expand, hitems]
    | some mode => simp [NodeHead.tokens, NodeHead.modeCalls, Schema.emitted, expand, hitems]

end Expansion

/-! ### Fluent calls -/

section Calls

variable {value : RuleLiteral → R} {body : SchemaBody} {cs : List (BuilderCall R)}
  {decls : List (NodeDeclaration R)} {stack : List ℕ} {limit p : ℕ} {d : NodeDeclaration R}

/-- The mode of a new declaration, which is the current node. -/
lemma FluentMode.calls_eq {mode : Option AccessMode} {ms : List (BuilderCall R)} (h : FluentMode mode ms)
    (hp : stack.getLast? = some decls.length) (hnew : d.isCapture = false) :
    TreeBuilder.calls ⟨decls ++ [d], stack, limit⟩ ms =
      .ok ⟨decls ++ [{ d with isCapture := decide (mode = some .capture) }], stack, limit⟩ := by
  have hd : (decls ++ [d])[decls.length]? = some d := List.getElem?_concat_length ..
  have hset : ∀ d', (decls ++ [d]).set decls.length d' = decls ++ [d'] := fun d' => by simp
  cases h with
  | capture =>
    rw [TreeBuilder.calls_cons (TreeBuilder.call_captureSubtree hp hd), hset]
    rfl
  | streaming hmode =>
    rw [TreeBuilder.calls_cons (TreeBuilder.call_streaming hp hd), hset, decide_eq_false hmode]
    rfl
  | omitted hmode =>
    rw [decide_eq_false hmode, ← hnew]
    rfl

variable (limit) in
/-- Fluent calls for the items of a body declare its nodes and lead back to the node they start in. -/
theorem FluentItems.calls_eq (h : FluentItems value body cs) (hp : stack.getLast? = some p)
    (hd : decls[p]? = some d) :
    TreeBuilder.calls ⟨decls, stack, limit⟩ cs =
      .ok ⟨decls.set p { d with rules := d.rules ++ body.leaves.map value } ++
        declared value d.fullPath p decls.length body, stack, limit⟩ := by
  induction h generalizing decls stack p d with
  | nil =>
    have hset : decls.set p d = decls := by
      rw [← (List.getElem?_eq_some_iff.mp hd).2, List.set_getElem_self]
    simp [TreeBuilder.calls, Forest.leaves, declared, hset]
  | rule rule hrest ih =>
    have hlt := (List.getElem?_eq_some_iff.mp hd).1
    rw [TreeBuilder.calls_cons (TreeBuilder.call_rule hp hd _), ih hp (List.getElem?_set_self hlt)]
    simp [Forest.leaves, declared]
  | @node head content rest mode inner cs hmode hcontent hrest ihc ihr =>
    have hlt := (List.getElem?_eq_some_iff.mp hd).1
    have hstack : stack ≠ [] := by
      rintro rfl
      cases hp
    have htop : (stack ++ [decls.length]).getLast? = some decls.length := List.getLast?_concat ..
    -- inside the braces the new node is current
    have hinner : TreeBuilder.calls ⟨decls ++ [⟨⟨head.tag⟩, d.fullPath ++ [⟨head.tag⟩],
          decide (head.mode = some .capture), [], some p⟩], stack ++ [decls.length], limit⟩ inner =
        .ok ⟨decls ++ head.declaration value d.fullPath (some p) content ::
          declared value (d.fullPath ++ [⟨head.tag⟩]) decls.length (decls.length + 1) content,
          stack ++ [decls.length], limit⟩ := by
      rw [ihc htop (List.getElem?_concat_length ..)]
      simp [NodeHead.declaration]
    rw [TreeBuilder.calls_cons (TreeBuilder.call_node hp hd head.tag),
      TreeBuilder.calls_append (hmode.calls_eq htop rfl), TreeBuilder.calls_append hinner,
      TreeBuilder.calls_cons (TreeBuilder.call_done hstack _),
      ihr hp ((List.getElem?_append_left hlt).trans hd)]
    rw [List.set_append_left _ _ hlt, List.append_assoc, List.length_append, List.length_cons,
      ← Nat.add_assoc, Nat.add_right_comm decls.length]
    rfl

lemma FluentMode.staysBelowRoot {mode : Option AccessMode} {ms : List (BuilderCall R)}
    (h : FluentMode mode ms) (depth : ℕ) (more : List (BuilderCall R)) :
    StaysBelowRoot depth (ms ++ more) ↔ StaysBelowRoot depth more := by
  cases h with
  | capture => simp [StaysBelowRoot, BuilderCall.depthAfter]
  | streaming => simp [StaysBelowRoot, BuilderCall.depthAfter]
  | omitted => rfl

/-- Fluent calls for the items of a body ascend exactly as often as they descend. -/
lemma FluentItems.staysBelowRoot (h : FluentItems value body cs) (depth : ℕ) (more : List (BuilderCall R)) :
    StaysBelowRoot depth (cs ++ more) ↔ StaysBelowRoot depth more := by
  induction h generalizing depth more with
  | nil => rfl
  | rule rule hrest ih => simpa [StaysBelowRoot, BuilderCall.depthAfter] using ih depth more
  | node head hmode hcontent hrest ihc ihr =>
    simp only [List.cons_append, List.append_assoc, StaysBelowRoot, BuilderCall.depthAfter,
      hmode.staysBelowRoot, ihc, ihr]
    simp

/-! ### The calls of an expansion -/

lemma NodeHead.fluentMode (head : NodeHead) : FluentMode head.mode (head.modeCalls : List (BuilderCall R)) := by
  obtain ⟨tag, mode⟩ := head
  cases mode with
  | none => exact .omitted (by simp)
  | some mode =>
    cases mode with
    | streaming => exact .streaming (by simp)
    | capture => exact .capture

variable (value body) in
lemma fluentItems_emitted : FluentItems value body (emitted value body) := by
  induction body with
  | nil => exact .nil
  | element head content rest ihc ihr => exact .node head head.fluentMode ihc ihr
  | leaf rule rest ih => exact .rule rule ih

lemma Schema.fluent_emitted (value : RuleLiteral → R) (s : Schema) : Fluent value s (s.emitted value) :=
  .root s.head.fluentMode (fluentItems_emitted value s.body)

/-- Fluent calls for a schema term declare its nodes and end at its root. -/
theorem Fluent.calls_eq {s : Schema} (h : Fluent value s cs) :
    (TreeBuilder.new s.head.tag).calls cs = .ok ⟨s.declarations value, [0], 64 * 1024 * 1024⟩ := by
  obtain ⟨hmode, hbody⟩ := h
  have hroot : (TreeBuilder.new s.head.tag : TreeBuilder R) =
      ⟨[] ++ [⟨⟨s.head.tag⟩, [⟨s.head.tag⟩], false, [], none⟩], [0], 64 * 1024 * 1024⟩ := rfl
  rw [hroot, TreeBuilder.calls_append (hmode.calls_eq rfl rfl), hbody.calls_eq _ rfl rfl]
  rfl

lemma Fluent.staysBelowRoot {s : Schema} (h : Fluent value s cs) : StaysBelowRoot 0 cs := by
  obtain ⟨hmode, hbody⟩ := h
  have hitems := (hbody.staysBelowRoot 0 []).mpr trivial
  rw [List.append_nil] at hitems
  exact (hmode.staysBelowRoot 0 _).mpr hitems

/-- The calls of a child node lead any builder back to its current node. -/
lemma comesBack_node {b : TreeBuilder R} (hb : b.Valid) (head : NodeHead) (content : SchemaBody) :
    b.ComesBack (emitted value (.element head content .nil)) := by
  obtain ⟨decls, stack, limit⟩ := b
  obtain ⟨p, d, hp, hd⟩ : ∃ p d, stack.getLast? = some p ∧ decls[p]? = some d := hb.current
  have hrun := (fluentItems_emitted value (.element head content .nil)).calls_eq limit hp hd
  refine ⟨_, head.declaration value d.fullPath (some p) content, hrun, rfl, ?_, hp.symm⟩
  simp [declared]

/-- The calls of a child node are part of those for the body around it. -/
lemma ChildAt.emitted_eq {before : List (BuilderCall R)} {child : NodeHead} {inner : SchemaBody}
    (h : ChildAt value body before child inner) :
    ∃ after, emitted value body = before ++ (emitted value (.element child inner .nil) ++ after) := by
  induction h with
  | here head content rest => exact ⟨emitted value rest, by simp [emitted]⟩
  | inside head h ih =>
    obtain ⟨after, hafter⟩ := ih
    exact ⟨_, by rw [emitted, hafter]; simp; rfl⟩
  | afterNode head h ih =>
    obtain ⟨after, hafter⟩ := ih
    exact ⟨after, by rw [emitted, hafter]; simp⟩
  | afterRule rule h ih =>
    obtain ⟨after, hafter⟩ := ih
    exact ⟨after, by rw [emitted, hafter]; simp⟩

end Calls

/-- The expansion of a written schema term never ascends from the root, comes back to the enclosing node
after every child node, and declares the nodes of the term in preorder. The invocation returns what `build`
returns after any fluent calls for the term. -/
theorem buildTree_reconstructs [Rule R] (value : RuleLiteral → R) (s : Schema) (tokens : List TokenTree)
    (h : Written s tokens) : ∃ calls builder, expand value tokens = some (s.head.tag, calls) ∧
      StaysBelowRoot 0 calls ∧ (TreeBuilder.new s.head.tag).calls calls = .ok builder ∧
      builder.parentStack = [0] ∧ builder.declarations = s.declarations value ∧
      (∀ before child inner, ChildAt value s.body before child inner →
        let cs := emitted value (.element child inner .nil)
        ∃ b after, calls = s.head.modeCalls ++ before ++ cs ++ after ∧
          (TreeBuilder.new s.head.tag).calls (s.head.modeCalls ++ before) = .ok b ∧ b.ComesBack cs) ∧
      buildTree value tokens = some builder.build ∧
      ∀ fluent, Fluent value s fluent → (TreeBuilder.new s.head.tag).calls fluent = .ok builder := by
  have hexpand : expand value tokens = some (s.head.tag, s.emitted value) :=
    expand_eq_some_iff.mpr ⟨s, h, rfl, rfl⟩
  have hfluent := s.fluent_emitted value
  have hcalls := hfluent.calls_eq
  refine ⟨_, _, hexpand, hfluent.staysBelowRoot, hcalls, rfl, rfl, ?_, ?_, fun _ hf => hf.calls_eq⟩
  · intro before child inner hchild cs
    obtain ⟨after, hafter⟩ := hchild.emitted_eq
    have hsplit : s.emitted value = s.head.modeCalls ++ before ++ cs ++ after := by
      rw [Schema.emitted, hafter]
      simp only [List.append_assoc, cs]
    -- the run of all calls begins with a run of those before the child
    rw [hsplit, List.append_assoc, TreeBuilder.calls_append_eq] at hcalls
    obtain ⟨b, hb, -⟩ := bind_eq_ok.mp hcalls
    have hvalid := TreeBuilder.valid_calls (TreeBuilder.valid_new _) hb
    exact ⟨b, after, hsplit, hb, comesBack_node hvalid child inner⟩
  · rw [buildTree, hexpand]
    change some (orPanic ((TreeBuilder.new s.head.tag).calls (s.emitted value)) >>= TreeBuilder.build) = _
    rw [hcalls, orPanic_ok, ok_bind]

/-- A struct literal without fields. -/
def emptyLiteral (name : String) : RuleLiteral := ⟨[name], [], RuleLiteral.singleton_ne name⟩

/-- A list with a rule before its captured items and one behind them. -/
def listSchema : Schema where
  head := ⟨"list", none⟩
  body := .leaf (emptyLiteral "First")
    (.element ⟨"item", some .capture⟩ (.leaf (emptyLiteral "Inner") .nil) (.leaf (emptyLiteral "Last") .nil))

/-- The schema of a list, with a comma behind the only rule of the items. -/
def listTokens : List TokenTree :=
  [.literal "list", .braces [.ident "First", .braces [], .comma,
    .literal "item", .ident "capture", .braces [.ident "Inner", .braces [], .comma], .comma,
    .ident "Last", .braces []]]

lemma listTokens_written : Written listSchema listTokens :=
  .root (.rule (emptyLiteral "First") (.node ⟨"item", some .capture⟩ (.rule (emptyLiteral "Inner") .nil)
    (.lastRule (emptyLiteral "Last"))))

theorem buildTree_reconstructs_sample : ∃ (calls : List (BuilderCall Probe)) (builder : TreeBuilder Probe),
    expand (fun _ => ⟨.all, true⟩) listTokens = some ("list", calls) ∧
      (TreeBuilder.new "list").calls calls = .ok builder ∧
      builder.declarations.map (fun d => (d.fullPath, d.isCapture, d.rules.length, d.parentIndex)) =
        [([⟨"list"⟩], false, 2, none), ([⟨"list"⟩, ⟨"item"⟩], true, 1, some 0)] ∧
      buildTree (fun _ => ⟨.all, true⟩) listTokens = some builder.build := by
  obtain ⟨calls, builder, hexpand, -, hcalls, -, hdecls, -, hbuild, -⟩ :=
    buildTree_reconstructs (fun _ => (⟨.all, true⟩ : Probe)) listSchema listTokens listTokens_written
  exact ⟨calls, builder, hexpand, hcalls, by rw [hdecls]; rfl, hbuild⟩

end XmlOxydizer

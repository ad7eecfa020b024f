import XmlOxydizer.Proofs.CaptureSubtree
import XmlOxydizer.Proofs.PairedRuns

/-!
# A plain interpreter

A document that is held as a tree can be checked by recursion over its elements, and a stream of events by
going through it with the open elements at hand. Such an interpreter needs no modes, no depth counters, no
pools, no capture buffer, no map of sibling counters and no flush buffer. The event loop does to the stack
frames what it does, and makes the same evaluations on the same views.

Two things are taken over from the code as they are. Siblings are counted by the hash of their tag, modulo
2 ^ 32, and the results of the rules are packed by its shifts.
-/

namespace XmlOxydizer

open Markup

variable {R : Type}

/-! ### The interpreter -/

section Interpreter

variable (checks : OverflowChecks) (tree : DescriptorTree R)

/-- The frame of an element when it opens inside these frames. -/
def openedContext (contexts : List NodeContext) (tag : BytesStart) (id : NodeId) : NodeContext where
  attrs := if tree.keepsAttrs id then tag.attrs else []
  text := ""
  children := []
  descriptorId := id
  index := match contexts.getLast? with
    | none => 0
    | some parent =>
      siblingIndex (parent.children.map fun child => (tree.desc child.descriptorId).tag.str) tag.tagName

/-- A leaf directly inside the innermost element. -/
def addLeaf (contexts : List NodeContext) (leaf : LeafEvent) : List NodeContext :=
  match contexts.getLast? with
  | none => []
  | some ctx =>
    if tree.keepsText ctx.descriptorId then
      contexts.dropLast ++ [{ ctx with text := ctx.text ++ leaf.chars }]
    else contexts

/-- What the rules of an element read when it closes inside these frames. -/
def closingView (contexts : List NodeContext) (ctx : NodeContext) (tag : BytesStart) (content : Content) :
    NodeAccess :=
  if tree.isCapture ctx.descriptorId then
    SubtreeView.nodeAccess checks ({
      root := dom tag content
      descriptorId := ctx.descriptorId
      index := ctx.index
      parentStack := contexts
      tree } : SubtreeView R)
  else StreamingViewOwned.nodeAccess checks { ctx, parentStack := contexts, tree }

/-- What an element leaves to the element around it. -/
def summaryOf (ctx : NodeContext) (tag : BytesStart) (content : Content) (ruleResults : RuleResults) :
    ChildSummary where
  attrs := if (tree.desc ctx.descriptorId).summaryNeeds.contains .attrs then tag.attrs else []
  text := if (tree.desc ctx.descriptorId).summaryNeeds.contains .text then directText content else ""
  descriptorId := ctx.descriptorId
  index := ctx.index
  ruleResults

variable [Rule R]

/-- The innermost element closes: its rules are evaluated, and it leaves its summary. -/
def interpretEnd (contexts : List NodeContext) (tag : BytesStart) (content : Content) :
    Except Panic (List NodeContext × List (Evaluation R)) :=
  match contexts.getLast? with
  | none => .ok ([], [])
  | some ctx => do
    let view := closingView checks tree contexts.dropLast ctx tag content
    let rules := (tree.desc ctx.descriptorId).rules
    let ruleResults ← ruleResultsOf checks view rules
    return (pushSummary contexts.dropLast (summaryOf tree ctx tag content ruleResults),
      evaluationsOn view rules)

/-- The frames after some content of the innermost element, and the evaluations inside it. -/
def interpret (contexts : List NodeContext) : Content → Except Panic (List NodeContext × List (Evaluation R))
  | .nil => .ok (contexts, [])
  | .leaf leaf rest => interpret (addLeaf tree contexts leaf) rest
  | .element tag content rest =>
    match tree.child (contexts.map NodeContext.descriptorId) tag.tagName with
    -- undeclared elements are passed over with all that is in them
    | none => interpret contexts rest
    | some id => do
      let opened := contexts ++ [openedContext tree contexts tag id]
      -- a captured element is read as a whole when it closes
      let reading := if tree.isCapture id then .ok (opened, []) else interpret opened content
      let (inside, inner) ← reading
      let (after, own) ← interpretEnd checks tree inside tag content
      let (final, more) ← interpret after rest
      return (final, inner ++ own ++ more)

end Interpreter

/-! ### Below a skipped or captured element -/

section Below

variable [Rule R] {checks : OverflowChecks} {tree : DescriptorTree R} {z : OpenElements} {s s' : ParserState R}
  {tag : BytesStart} {leaf : LeafEvent} {g : Content} {ts : List Event}

/-- What is read here goes to no frame: the innermost element is skipped, or captured, or inside such an
element. -/
def Sealed (tree : DescriptorTree R) (z : OpenElements) : Prop :=
  0 < (tree.walk (tagsOf z)).below ∨ tree.inCapture (tree.walk (tagsOf z)).ids = true

/-- Nothing has been evaluated and the frames are as they were. -/
structure Unmoved (s s' : ParserState R) : Prop where
  contexts_eq : s'.contextStack = s.contextStack
  out_eq : s'.out = s.out

omit [Rule R] in
lemma Unmoved.trans {s'' : ParserState R} (h : Unmoved s s') (h' : Unmoved s' s'') : Unmoved s s'' :=
  ⟨h'.contexts_eq.trans h.contexts_eq, h'.out_eq.trans h.out_eq⟩

omit [Rule R] in
lemma sealed_extend (g : Content) : Sealed tree (z.extend g) ↔ Sealed tree z := by
  rw [Sealed, Sealed, tagsOf_extend]

omit [Rule R] in
lemma Sealed.below (h : Sealed tree z) (tag : BytesStart) (content : Content) :
    0 < (tree.walk (tagsOf (z ++ [⟨tag, content⟩]))).below := by
  have hpos : (tree.walk (tagsOf z)).below > 0 ∨ tree.inCapture (tree.walk (tagsOf z)).ids = true := h
  rw [tagsOf_append, tagsOf_cons, tagsOf_nil, DescriptorTree.walk_concat, Position.enter, if_pos hpos]
  exact Nat.succ_pos _

omit [Rule R] in
lemma Tracks.sealed_iff {levels : List Level} {rest : OpenElements} (h : Tracks tree levels rest s) :
    Sealed tree (levels.map Level.frame ++ rest) ↔ rest ≠ [] ∨ tree.inCapture (levels.map Level.id) = true := by
  rw [Sealed, h.walk_eq, List.length_pos_iff]

lemma start_unmoved (hwf : tree.WellFormed) (h : Follows tree z s) (hsealed : Sealed tree z)
    (hstart : handleStart checks tree tag s = .ok s') : Unmoved s s' := by
  obtain ⟨levels, rest, rfl, htracks⟩ := h
  have hok := start_ok checks hwf htracks tag
  rw [hstart] at hok
  rw [htracks.sealed_iff] at hsealed
  cases hok with
  | ok levels' rest' _ _ _ hout _ _ hstays =>
    refine ⟨hstays fun hrest hstream => ?_, hout⟩
    rcases hsealed with hne | hcapture
    · exact absurd hrest hne
    · rw [hstream] at hcapture
      cases hcapture

lemma end_unmoved (h : Follows tree z s) (hbelow : 0 < (tree.walk (tagsOf z)).below)
    (hend : handleEnd checks tree s = .next s') : Unmoved s s' := by
  obtain ⟨levels, rest, rfl, htracks⟩ := h
  have hok := end_ok checks htracks
  rw [hend] at hok
  rw [htracks.walk_eq] at hbelow
  have hrest : rest ≠ [] := List.length_pos_iff.mp hbelow
  cases hok with
  | next levels' rest' _ _ _ hout _ hstays =>
    rw [closingEvaluations_below checks tree levels hrest] at hout
    exact ⟨hstays (.inr hrest), hout⟩

lemma leaf_unmoved (h : Follows tree z s) (hsealed : Sealed tree z)
    (hleaf : step checks tree (.leaf leaf) s = .next s') : Unmoved s s' := by
  have hother : Flow.next s = .next s' → Unmoved s s' := by
    intro heq
    cases heq
    exact ⟨rfl, rfl⟩
  cases leaf with
  | text content =>
    obtain ⟨levels, rest, rfl, htracks⟩ := h
    rw [htracks.sealed_iff] at hsealed
    simp only [step] at hleaf
    cases htracks.mode_ok with
    | streaming hcapture hmode hskip =>
      have hrest : rest ≠ [] := hsealed.resolve_right (by simp [hcapture])
      have htext : handleText tree content s = .ok s := by
        simp [handleText, hskip, hrest]
      rw [htext] at hleaf
      exact hother hleaf
    | capturing ls l b _ _ _ hmode hskip =>
      simp only [handleText, hskip, if_true, hmode] at hleaf
      cases hdecode : content.decode with
      | error e => simp [hdecode, Flow.attempt] at hleaf
      | ok decoded =>
        simp only [hdecode, orError_ok, ok_bind] at hleaf
        cases hempty : decoded.isEmpty with
        | true =>
          simp only [hempty, if_true] at hleaf
          exact hother hleaf
        | false =>
          simp only [hempty, Bool.false_eq_true, if_false] at hleaf
          cases hbuilder : b.text decoded with
          | error e => simp [hbuilder, Flow.attempt] at hleaf
          | ok b' =>
            simp only [hbuilder, orError_ok, ok_bind, except_pure, Flow.attempt, Flow.next.injEq] at hleaf
            subst hleaf
            exact ⟨rfl, rfl⟩
  | cData content => exact hother hleaf
  | generalRef content => exact hother hleaf
  | comment => exact hother hleaf
  | decl => exact hother hleaf
  | pi => exact hother hleaf
  | docType => exact hother hleaf

/-! ### Runs -/

lemma eventLoop_cons_next {tok : Event} (h : eventLoop checks tree ((tok :: ts).map .ok) s = .next s') :
    ∃ u, step checks tree tok s = .next u ∧ eventLoop checks tree (ts.map .ok) u = .next s' := by
  rw [eventLoop_cons] at h
  cases hstep : step checks tree tok s with
  | stop why out =>
    rw [hstep] at h
    cases h
  | next u =>
    rw [hstep] at h
    exact ⟨u, rfl, h⟩

lemma eventLoop_append_next {us : List Event}
    (h : eventLoop checks tree ((ts ++ us).map .ok) s = .next s') :
    ∃ u, eventLoop checks tree (ts.map .ok) s = .next u ∧ eventLoop checks tree (us.map .ok) u = .next s' := by
  rw [List.map_append, eventLoop_append] at h
  cases hrun : eventLoop checks tree (ts.map .ok) s with
  | stop why out =>
    rw [hrun] at h
    cases h
  | next u =>
    rw [hrun] at h
    exact ⟨u, rfl, h⟩

lemma handleStart_of_step (h : step checks tree (.start tag) s = .next s') :
    handleStart checks tree tag s = .ok s' := by
  cases hstart : handleStart checks tree tag s with
  | ok u =>
    simp only [step, hstart, Flow.attempt, Flow.next.injEq] at h
    rw [h]
  | error why => simp [step, hstart, Flow.attempt] at h

lemma step_empty (tag : BytesStart) (s : ParserState R) : step checks tree (.empty tag) s =
    (step checks tree (.start tag) s).bind (step checks tree .close) := by
  simp only [step]
  cases handleStart checks tree tag s <;> rfl

/-- The same forest written with a start and an end for every element. -/
lemma eventLoop_tokens (hdoc : Writes g ts) (s : ParserState R) :
    eventLoop checks tree (ts.map .ok) s = eventLoop checks tree (g.tokens.map .ok) s := by
  induction hdoc generalizing s with
  | nil => rfl
  | @element a content rest ts us _ _ ihc ihr =>
    rw [Forest.tokens, eventLoop_cons, eventLoop_cons]
    congr 1
    funext u
    rw [List.map_append, List.map_append, eventLoop_append, eventLoop_append, ihc]
    congr 1
    funext v
    rw [eventLoop_cons, eventLoop_cons]
    congr 1
    funext w
    exact ihr w
  | @empty a rest us _ ih =>
    rw [Forest.tokens, Forest.tokens, List.nil_append, eventLoop_cons, eventLoop_cons, step_empty]
    cases step checks tree (.start a) s with
    | stop why out => rfl
    | next u =>
      simp only [Flow.bind]
      rw [eventLoop_cons]
      congr 1
      funext w
      exact ih w
  | @leaf leaf rest us _ ih =>
    rw [Forest.tokens, eventLoop_cons, eventLoop_cons]
    congr 1
    funext u
    exact ih u

lemma Follows.content (hwf : tree.WellFormed) (h : Follows tree z s)
    (hrun : eventLoop checks tree (g.tokens.map .ok) s = .next s') : Follows tree (z.extend g) s' := by
  have hok := run_ok checks hwf h (g.tokens.map .ok)
  rw [hrun] at hok
  cases hok with
  | next ts _ _ hevents hfollows =>
    have hts : g.tokens = ts := List.map_injective_iff.mpr (fun _ _ h => Except.ok.inj h) hevents
    rwa [← hts, Spine.advanceAll_writes (writes_tokens g)] at hfollows

/-- The states of the loop at the tags of an element: before it, inside it at the start and at the end, and
behind it. -/
structure PassesElement (checks : OverflowChecks) (tree : DescriptorTree R) (z : OpenElements) (tag : BytesStart)
    (content : Content) (s u v w : ParserState R) : Prop where
  start_eq : step checks tree (.start tag) s = .next u
  content_eq : eventLoop checks tree (content.tokens.map .ok) u = .next v
  end_eq : step checks tree .close v = .next w
  opened : Follows tree (z ++ [⟨tag, .nil⟩]) u
  filled : Follows tree (z ++ [⟨tag, content⟩]) v
  closed : Follows tree (z.extend (.element tag content .nil)) w

lemma Follows.next (hwf : tree.WellFormed) (h : Follows tree z s) {tok : Event}
    (hstep : step checks tree tok s = .next s') : Follows tree (z.advance tok) s' := by
  have hok := step_ok checks hwf h tok
  rw [hstep] at hok
  cases hok with
  | next _ _ hfollows => exact hfollows

lemma Follows.passes (hwf : tree.WellFormed) (h : Follows tree z s) {content rest : Content}
    (hrun : eventLoop checks tree ((Forest.element tag content rest).tokens.map .ok) s = .next s') :
    ∃ u v w, PassesElement checks tree z tag content s u v w ∧
      eventLoop checks tree (rest.tokens.map .ok) w = .next s' := by
  obtain ⟨u, hstart, hmore⟩ := eventLoop_cons_next hrun
  obtain ⟨v, hcontent, hmore⟩ := eventLoop_append_next hmore
  obtain ⟨w, hend, hrest⟩ := eventLoop_cons_next hmore
  have hopened := h.next hwf hstart
  have hfilled := hopened.content hwf hcontent
  rw [Spine.advance_start, Spine.extend_concat, Forest.nil_append] at hfilled
  have hclosed := hfilled.next hwf hend
  rw [Spine.advance_close] at hclosed
  exact ⟨u, v, w, ⟨hstart, hcontent, hend, hopened, hfilled, hclosed⟩, hrest⟩

/-- Content that is read below a skipped or captured element leaves no trace in the frames. -/
theorem content_unmoved (hwf : tree.WellFormed) (h : Follows tree z s) (hsealed : Sealed tree z)
    (hrun : eventLoop checks tree (g.tokens.map .ok) s = .next s') : Unmoved s s' := by
  induction g generalizing z s s' with
  | nil =>
    cases hrun
    exact ⟨rfl, rfl⟩
  | leaf leaf rest ih =>
    obtain ⟨u, hleaf, hrest⟩ := eventLoop_cons_next hrun
    have hbehind := ih (h.next hwf hleaf) ((sealed_extend _).mpr hsealed) hrest
    exact (leaf_unmoved h hsealed hleaf).trans hbehind
  | element tag content rest ihc ihr =>
    obtain ⟨u, v, w, hpasses, hrest⟩ := h.passes hwf hrun
    have hbelow := hsealed.below tag
    have hin := start_unmoved hwf h hsealed (handleStart_of_step hpasses.start_eq)
    have hinside := ihc hpasses.opened (.inl (hbelow .nil)) hpasses.content_eq
    have hout := end_unmoved hpasses.filled (hbelow content) hpasses.end_eq
    have hbehind := ihr hpasses.closed ((sealed_extend _).mpr hsealed) hrest
    exact hin.trans (hinside.trans (hout.trans hbehind))

end Below

/-! ### Between the tags of a declared element -/

section Inside

variable [Rule R] {checks : OverflowChecks} {tree : DescriptorTree R} {levels ls : List Level} {l : Level}
  {z : OpenElements} {s s' : ParserState R} {tag : BytesStart} {leaf : LeafEvent} {content g : Content}
  {id : NodeId} {ts : List Event}

lemma LevelOk.summary_tags (hwf : tree.WellFormed) (h : LevelOk tree l) :
    l.ctx.children.map (fun child => (tree.desc child.descriptorId).tag.str) = l.summarizedTags tree := by
  unfold Level.summarizedTags
  have htag : ∀ child ∈ summarizedChildren tree l.id l.frame.content,
      (tree.desc child.id).tag.str = child.tag := by
    intro child hchild
    unfold summarizedChildren at hchild
    split at hchild
    · cases hchild
    · obtain ⟨⟨label, inner⟩, -, hsome⟩ := List.mem_filterMap.mp hchild
      obtain ⟨c, hc, rfl⟩ := Option.map_eq_some_iff.mp hsome
      exact ((hwf.child_concat [] h.contains).mp hc).tag_eq
  have hchildren := h.children
  generalize summarizedChildren tree l.id l.frame.content = children at hchildren htag ⊢
  generalize l.ctx.children = summaries at hchildren ⊢
  induction hchildren with
  | nil => rfl
  | cons hfirst _ ih =>
    rw [List.map_cons, List.map_cons, hfirst.descriptorId_eq, htag _ List.mem_cons_self,
      ih fun child hchild => htag child (List.mem_cons_of_mem _ hchild)]

omit [Rule R] in
lemma Tracks.ids_eq {rest : OpenElements} (h : Tracks tree levels rest s) :
    s.contextStack.map NodeContext.descriptorId = levels.map Level.id := by
  rw [h.contextStack_eq, List.map_map]
  exact List.map_congr_left fun l hl => (h.levels_ok.ok l hl).descriptorId_eq

/-- The frame of an element that has just been opened. -/
lemma OpenLevels.opened_eq (hwf : tree.WellFormed) (h : OpenLevels tree (ls ++ [l]))
    (hframe : l.frame = ⟨tag, .nil⟩) : l.ctx = openedContext tree (ls.map Level.ctx) tag l.id := by
  have hl := h.last
  have hattrs := hl.attrs_eq
  have htext := hl.text_eq
  have hchildren := hl.children
  have hid := hl.descriptorId_eq
  have hindex : l.ctx.index = (openedContext tree (ls.map Level.ctx) tag l.id).index := by
    rcases List.eq_nil_or_concat' ls with rfl | ⟨ls, p, rfl⟩
    · exact h.root_index l (by simp)
    · have hlink := h.pop.linked
      have hp := h.ok p (by simp)
      rw [hlink.index_eq, ← hp.summary_tags hwf]
      simp [openedContext, Level.tag, hframe]
  have hnone : summarizedChildren tree l.id .nil = [] := by
    simp [summarizedChildren, declaredChildren, Forest.elements]
  rw [hframe] at hattrs htext hchildren
  rw [hnone, List.forall₂_nil_left_iff] at hchildren
  rw [directText_nil, ite_self] at htext
  generalize l.ctx = ctx at *
  obtain ⟨attrs, text, children, descriptorId, index⟩ := ctx
  dsimp only at hattrs htext hchildren hid hindex
  subst hattrs htext hchildren hid hindex
  rfl

lemma start_opened (hwf : tree.WellFormed) (h : Tracks tree levels [] s)
    (hstream : tree.inCapture (levels.map Level.id) = false)
    (hid : tree.child (levels.map Level.id) tag.tagName = some id)
    (hstart : step checks tree (.start tag) s = .next s') :
    s'.contextStack = s.contextStack ++ [openedContext tree s.contextStack tag id] ∧ s'.out = s.out := by
  have hok := start_ok checks hwf h tag
  rw [handleStart_of_step hstart] at hok
  cases hok with
  | ok levels' rest' _ hz htracks hout _ hopens =>
    obtain ⟨ctx, -, -, hcontexts⟩ := (hopens rfl hstream id hid).1.contexts_eq
    have hfollows : Follows tree (levels.map Level.frame ++ [⟨tag, .nil⟩]) s' :=
      ⟨levels', rest', by simpa using hz, htracks⟩
    have heval : tree.evaluatedAt (tagsOf (levels.map Level.frame) ++ [tag.tagName]) = some id := by
      rw [DescriptorTree.evaluatedAt_concat hwf, h.levels_ok.walk_eq, if_neg (by simp [hstream])]
      exact hid
    obtain ⟨ls, l, htracks', -, rfl, hframe⟩ := hfollows.innermost hwf heval
    have hstack := htracks'.contextStack_eq
    rw [hcontexts, List.map_append, List.map_singleton] at hstack
    obtain ⟨hls, hl⟩ := List.append_inj' hstack rfl
    rw [hcontexts, hl, htracks'.levels_ok.opened_eq hwf hframe, hls]
    exact ⟨rfl, hout⟩

lemma start_undeclared_unmoved (hwf : tree.WellFormed) (h : Tracks tree levels [] s)
    (hnone : tree.child (levels.map Level.id) tag.tagName = none)
    (hstart : step checks tree (.start tag) s = .next s') : Unmoved s s' := by
  have hok := start_ok checks hwf h tag
  rw [handleStart_of_step hstart] at hok
  cases hok with
  | ok levels' rest' _ _ _ hout _ _ hstays => exact ⟨hstays fun _ _ => hnone, hout⟩

lemma leaf_added (h : Tracks tree levels [] s) (hstream : tree.inCapture (levels.map Level.id) = false)
    (hleaf : step checks tree (.leaf leaf) s = .next s') :
    s'.contextStack = addLeaf tree s.contextStack leaf ∧ s'.out = s.out := by
  have hblank : leaf.chars = "" → addLeaf tree s.contextStack leaf = s.contextStack := by
    intro hchars
    unfold addLeaf
    rcases List.eq_nil_or_concat' s.contextStack with hnil | ⟨contexts, ctx, hconcat⟩
    · rw [hnil]
      rfl
    · rw [hconcat]
      simp [hchars]
  have hother : leaf.chars = "" → Flow.next s = .next s' →
      s'.contextStack = addLeaf tree s.contextStack leaf ∧ s'.out = s.out := by
    intro hchars heq
    cases heq
    exact ⟨(hblank hchars).symm, rfl⟩
  cases leaf with
  | text text =>
    cases h.mode_ok with
    | capturing ls l b hlevels hcapture =>
      rw [hlevels] at hstream
      simp [hcapture] at hstream
    | streaming hcapture hmode hskip =>
      rw [List.length_nil] at hskip
      simp only [step, handleText, hskip, if_true, hmode] at hleaf
      rcases List.eq_nil_or_concat' levels with rfl | ⟨ls, l, rfl⟩
      · have hnil : s.contextStack = [] := h.contextStack_eq
        simp only [hnil, List.getLast?_nil, except_pure, Flow.attempt, Flow.next.injEq] at hleaf
        subst hleaf
        rw [hnil]
        exact ⟨rfl, rfl⟩
      · have hl := h.levels_ok.last
        have hcontexts : s.contextStack = ls.map Level.ctx ++ [l.ctx] := by simp [h.contextStack_eq]
        have hkeeps : (tree.desc l.id).needText = tree.keepsText l.ctx.descriptorId := by
          have hmode : tree.isCapture l.id = false := by simpa using hcapture
          simp [DescriptorTree.keepsText, hl.descriptorId_eq, hmode]
        have hget : tree.get l.ctx.descriptorId = .ok (tree.desc l.id) := by
          rw [hl.descriptorId_eq, DescriptorTree.get_eq hl.contains]
        simp only [hcontexts, List.getLast?_concat, List.dropLast_concat, hget, orPanic_ok, ok_bind, hkeeps,
          decode_eq] at hleaf
        cases hk : tree.keepsText l.ctx.descriptorId with
        | false =>
          simp only [hk, Bool.false_eq_true, if_false, except_pure, Flow.attempt, Flow.next.injEq] at hleaf
          subst hleaf
          simp [addLeaf, hcontexts, hk]
        | true =>
          simp only [hk, if_true] at hleaf
          cases hfault : (LeafEvent.text text).fault with
          | some e => simp [hfault, Flow.attempt] at hleaf
          | none =>
            simp only [hfault, orError_ok, ok_bind] at hleaf
            cases hempty : (LeafEvent.text text).chars.isEmpty with
            | true =>
              simp only [hempty, if_true, except_pure, Flow.attempt, Flow.next.injEq] at hleaf
              exact hother (String.isEmpty_iff.mp hempty) (by rw [hleaf])
            | false =>
              simp only [hempty, Bool.false_eq_true, if_false, except_pure, Flow.attempt,
                Flow.next.injEq] at hleaf
              subst hleaf
              simp [addLeaf, hcontexts, hk]
  | cData text => exact hother rfl hleaf
  | generalRef text => exact hother rfl hleaf
  | comment => exact hother rfl hleaf
  | decl => exact hother rfl hleaf
  | pi => exact hother rfl hleaf
  | docType => exact hother rfl hleaf

variable (checks) in
omit [Rule R] in
lemma LevelOk.closingView_eq (h : LevelOk tree l) (ls : List Level) :
    closingView checks tree (ls.map Level.ctx) l.ctx l.frame.label l.frame.content = l.view checks tree ls := by
  unfold closingView Level.view
  rw [h.descriptorId_eq]

omit [Rule R] in
lemma Summarizes.summaryOf_eq {summary : ChildSummary}
    (h : Summarizes tree ⟨l.id, l.frame.label, l.frame.content⟩ summary) (hl : LevelOk tree l)
    (hindex : summary.index = l.ctx.index) :
    summaryOf tree l.ctx l.frame.label l.frame.content summary.ruleResults = summary := by
  have hattrs := h.attrs_eq
  have htext := h.text_eq
  have hid := h.descriptorId_eq
  obtain ⟨attrs, text, descriptorId, index, ruleResults⟩ := summary
  dsimp only at hattrs htext hid hindex
  subst hattrs htext hid hindex
  simp only [summaryOf, hl.descriptorId_eq, NodeNeeds.contains_attrs, NodeNeeds.contains_text]

/-- The innermost level closes as the interpreter does. -/
lemma end_interpreted (h : Tracks tree (ls ++ [l]) [] s) (hframe : l.frame = ⟨tag, content⟩)
    (hend : handleEnd checks tree s = .next s') : ∃ evals,
      interpretEnd checks tree s.contextStack tag content = .ok (s'.contextStack, evals) ∧
      s'.out = s.out.record evals := by
  have hl := h.levels_ok.last
  have hok := end_ok checks h
  rw [hend] at hok
  cases hok with
  | next levels' rest' _ _ _ hout hleaves =>
    obtain ⟨summary, hsummary⟩ := hleaves rfl ls l rfl
    rw [closingEvaluations_concat] at hout
    refine ⟨_, ?_, hout⟩
    have hcontexts : s.contextStack = ls.map Level.ctx ++ [l.ctx] := by simp [h.contextStack_eq]
    have hview := hl.closingView_eq checks ls
    have hsame := hsummary.summarizes.summaryOf_eq hl hsummary.index_eq
    have hresults := hsummary.results_eq
    rw [hsummary.contexts_eq, hcontexts]
    rw [hframe] at hview hsame
    simp only [interpretEnd, List.getLast?_concat, List.dropLast_concat, hview, hl.descriptorId_eq, hresults,
      ok_bind, hsame, except_pure]

omit [Rule R] in
lemma walk_declared (h : ¬ Sealed tree z) (hid : tree.child (tree.walk (tagsOf z)).ids tag.tagName = some id)
    (content : Content) :
    tree.walk (tagsOf (z ++ [⟨tag, content⟩])) = ⟨(tree.walk (tagsOf z)).ids ++ [id], 0⟩ := by
  have hneg : ¬ ((tree.walk (tagsOf z)).below > 0 ∨ tree.inCapture (tree.walk (tagsOf z)).ids = true) := h
  rw [tagsOf_append, tagsOf_cons, tagsOf_nil, DescriptorTree.walk_concat, Position.enter, if_neg hneg]
  simp only [hid]

omit [Rule R] in
lemma below_undeclared (h : ¬ Sealed tree z)
    (hnone : tree.child (tree.walk (tagsOf z)).ids tag.tagName = none) (content : Content) :
    0 < (tree.walk (tagsOf (z ++ [⟨tag, content⟩]))).below := by
  have hneg : ¬ ((tree.walk (tagsOf z)).below > 0 ∨ tree.inCapture (tree.walk (tagsOf z)).ids = true) := h
  rw [tagsOf_append, tagsOf_cons, tagsOf_nil, DescriptorTree.walk_concat, Position.enter, if_neg hneg]
  simp only [hnone]
  exact Nat.one_pos

/-- The event loop does to the frames what the interpreter does, and makes its evaluations. -/
theorem content_interpreted (hwf : tree.WellFormed) (h : Follows tree z s) (hopen : ¬ Sealed tree z)
    (hrun : eventLoop checks tree (g.tokens.map .ok) s = .next s') :
    ∃ evals, interpret checks tree s.contextStack g = .ok (s'.contextStack, evals) ∧
      s'.out = s.out.record evals := by
  induction g generalizing z s s' with
  | nil =>
    cases hrun
    exact ⟨[], rfl, rfl⟩
  | leaf leaf rest ih =>
    obtain ⟨u, hleaf, hrest⟩ := eventLoop_cons_next hrun
    obtain ⟨evals, heval, hout⟩ := ih (h.next hwf hleaf) (mt (sealed_extend _).mp hopen) hrest
    obtain ⟨hplace, hstream⟩ := not_or.mp hopen
    obtain ⟨levels, rfl, htracks⟩ := h.levels (Nat.eq_zero_of_not_pos hplace)
    rw [htracks.levels_ok.walk_eq, Bool.not_eq_true] at hstream
    obtain ⟨hcontexts, hsame⟩ := leaf_added htracks hstream hleaf
    refine ⟨evals, ?_, by rw [hout, hsame]⟩
    rw [interpret, ← hcontexts, heval]
  | element tag content rest ihc ihr =>
    obtain ⟨u, v, w, hpasses, hrest⟩ := h.passes hwf hrun
    obtain ⟨more, hmore, hout⟩ := ihr hpasses.closed (mt (sealed_extend _).mp hopen) hrest
    obtain ⟨hplace, hstream⟩ := not_or.mp hopen
    obtain ⟨levels, hz, htracks⟩ := h.levels (Nat.eq_zero_of_not_pos hplace)
    have hids : (tree.walk (tagsOf z)).ids = s.contextStack.map NodeContext.descriptorId := by
      rw [hz, htracks.levels_ok.walk_eq, htracks.ids_eq]
    rw [interpret]
    cases hchild : tree.child (s.contextStack.map NodeContext.descriptorId) tag.tagName with
    | none =>
      have hbelow := below_undeclared hopen (hids ▸ hchild)
      have hin := start_undeclared_unmoved hwf htracks (htracks.ids_eq ▸ hchild) hpasses.start_eq
      have hinside := content_unmoved hwf hpasses.opened (.inl (hbelow .nil)) hpasses.content_eq
      have hend := end_unmoved hpasses.filled (hbelow content) hpasses.end_eq
      obtain ⟨hcontexts, hsame⟩ := hin.trans (hinside.trans hend)
      rw [hcontexts] at hmore
      exact ⟨more, hmore, by rw [hout, hsame]⟩
    | some id =>
      have hwalk := walk_declared hopen (hids ▸ hchild)
      have hstream' : tree.inCapture (levels.map Level.id) = false := by
        rwa [hids, htracks.ids_eq, Bool.not_eq_true] at hstream
      obtain ⟨hcontexts, hsame⟩ := start_opened hwf htracks hstream' (htracks.ids_eq ▸ hchild) hpasses.start_eq
      have hinside : ∃ inner, (if tree.isCapture id then .ok (u.contextStack, [])
          else interpret checks tree u.contextStack content) = .ok (v.contextStack, inner) ∧
            v.out = u.out.record inner := by
        cases hcapture : tree.isCapture id with
        | true =>
          have hsealed : Sealed tree (z ++ [⟨tag, .nil⟩]) := .inr (by rw [hwalk]; simp [hcapture])
          obtain ⟨hstays, hsilent⟩ := content_unmoved hwf hpasses.opened hsealed hpasses.content_eq
          exact ⟨[], by rw [if_pos rfl, hstays], hsilent⟩
        | false =>
          have hopened : ¬ Sealed tree (z ++ [⟨tag, .nil⟩]) := by
            rw [Sealed, hwalk]
            simp [hcapture]
          rw [if_neg Bool.false_ne_true]
          exact ihc hpasses.opened hopened hpasses.content_eq
      obtain ⟨inner, hinner, hinnerOut⟩ := hinside
      have heval : tree.evaluatedAt (tagsOf z ++ [tag.tagName]) = some id := by
        rw [DescriptorTree.evaluatedAt_concat hwf, if_neg (not_or.mpr ⟨hplace, hstream⟩), hids]
        exact hchild
      obtain ⟨ls, l, htracks', -, -, hframe⟩ := hpasses.filled.innermost hwf heval
      obtain ⟨own, hown, hownOut⟩ := end_interpreted htracks' hframe hpasses.end_eq
      refine ⟨inner ++ own ++ more, ?_, ?_⟩
      · dsimp only
        rw [← hcontexts, hinner, ok_bind]
        dsimp only
        rw [hown, ok_bind]
        dsimp only
        rw [hmore, ok_bind]
        rfl
      · rw [hout, hownOut, hinnerOut, hsame, ← Output.record_append, ← Output.record_append,
          List.append_assoc]

end Inside

/-! ### Event by event -/

instance (tree : DescriptorTree R) (z : OpenElements) : Decidable (Sealed tree z) :=
  inferInstanceAs (Decidable (_ ∨ _))

section Events

variable (checks : OverflowChecks) (tree : DescriptorTree R)

/-- The frames after an element opens inside the open elements `z`. -/
def interpretStart (z : OpenElements) (contexts : List NodeContext) (tag : BytesStart) : List NodeContext :=
  if Sealed tree z then contexts
  else
    match tree.child (contexts.map NodeContext.descriptorId) tag.tagName with
    | none => contexts
    | some id => contexts ++ [openedContext tree contexts tag id]

variable [Rule R]

/-- The frames after the innermost of the open elements `z` closes, and the evaluations on it. -/
def interpretClose (z : OpenElements) (contexts : List NodeContext) :
    Except Panic (List NodeContext × List (Evaluation R)) :=
  match z.getLast? with
  | none => .ok (contexts, [])
  | some f =>
    if (tree.walk (tagsOf z)).below > 0 then .ok (contexts, [])
    else interpretEnd checks tree contexts f.label f.content

/-- The frames after an event, and the evaluations at it. -/
def interpretEvent (z : OpenElements) (contexts : List NodeContext) :
    Event → Except Panic (List NodeContext × List (Evaluation R))
  | .start tag => .ok (interpretStart tree z contexts tag, [])
  | .empty tag => interpretClose checks tree (z ++ [⟨tag, .nil⟩]) (interpretStart tree z contexts tag)
  | .close => interpretClose checks tree z contexts
  | .leaf leaf => .ok (if Sealed tree z then contexts else addLeaf tree contexts leaf, [])

/-- The frames after some events, and the evaluations at them. -/
def interpretEvents (z : OpenElements) (contexts : List NodeContext) :
    List Event → Except Panic (List NodeContext × List (Evaluation R))
  | [] => .ok (contexts, [])
  | tok :: ts => do
    let (after, evals) ← interpretEvent checks tree z contexts tok
    let (final, more) ← interpretEvents (z.advance tok) after ts
    return (final, evals ++ more)

/-- What the rules have to report on a stream of events before its first error. -/
def dueDiagnostics (events : List (Except XmlError Event)) : List Diagnostic :=
  match interpretEvents checks tree [] [] (untilFault tree [] events) with
  | .ok (_, evals) => evals.flatMap Evaluation.diagnostics
  | .error _ => []

end Events

section Events

variable [Rule R] {checks : OverflowChecks} {tree : DescriptorTree R} {z : OpenElements} {s s' : ParserState R}
  {tag : BytesStart} {tok : Event} {ts : List Event}

lemma start_interpreted (hwf : tree.WellFormed) (h : Follows tree z s)
    (hstart : handleStart checks tree tag s = .ok s') :
    s'.contextStack = interpretStart tree z s.contextStack tag ∧ s'.out = s.out := by
  have hstep : step checks tree (.start tag) s = .next s' := by rw [step, hstart]; rfl
  unfold interpretStart
  by_cases hsealed : Sealed tree z
  · rw [if_pos hsealed]
    obtain ⟨hcontexts, hout⟩ := start_unmoved hwf h hsealed hstart
    exact ⟨hcontexts, hout⟩
  · obtain ⟨hplace, hstream⟩ := not_or.mp hsealed
    obtain ⟨levels, rfl, htracks⟩ := h.levels (Nat.eq_zero_of_not_pos hplace)
    rw [htracks.levels_ok.walk_eq, Bool.not_eq_true] at hstream
    rw [if_neg hsealed, htracks.ids_eq]
    cases hchild : tree.child (levels.map Level.id) tag.tagName with
    | none =>
      obtain ⟨hcontexts, hout⟩ := start_undeclared_unmoved hwf htracks hchild hstep
      exact ⟨hcontexts, hout⟩
    | some id => exact start_opened hwf htracks hstream hchild hstep

lemma close_interpreted (h : Follows tree z s) (hend : handleEnd checks tree s = .next s') :
    ∃ evals, interpretClose checks tree z s.contextStack = .ok (s'.contextStack, evals) ∧
      s'.out = s.out.record evals := by
  unfold interpretClose
  rcases List.eq_nil_or_concat' z with rfl | ⟨w, f, rfl⟩
  · obtain ⟨levels, rest, hz, htracks⟩ := h
    obtain ⟨hlevels, rfl⟩ := List.append_eq_nil_iff.mp hz
    obtain rfl := List.map_eq_nil_iff.mp hlevels
    have hok := end_ok checks htracks
    rw [hend] at hok
    cases hok with
    | next levels' rest' _ _ _ hout _ hstays =>
      have hcontexts := hstays (.inl rfl)
      exact ⟨[], by rw [hcontexts]; rfl, hout⟩
  · simp only [List.getLast?_concat]
    by_cases hbelow : (tree.walk (tagsOf (w ++ [f]))).below > 0
    · obtain ⟨hcontexts, hout⟩ := end_unmoved h hbelow hend
      rw [if_pos hbelow]
      exact ⟨[], by rw [hcontexts], hout⟩
    · rw [if_neg hbelow]
      obtain ⟨levels, hz, htracks⟩ := h.levels (Nat.eq_zero_of_not_pos hbelow)
      obtain ⟨ls, l, rfl, -, hframe⟩ := List.append_eq_map_iff.mp hz
      obtain ⟨l, rfl, rfl⟩ := List.map_eq_singleton_iff.mp hframe
      exact end_interpreted htracks rfl hend

/-- A step does to the frames what the interpreter does at the event, and makes its evaluations. -/
lemma event_interpreted (hwf : tree.WellFormed) (h : Follows tree z s)
    (hstep : step checks tree tok s = .next s') :
    ∃ evals, interpretEvent checks tree z s.contextStack tok = .ok (s'.contextStack, evals) ∧
      s'.out = s.out.record evals := by
  cases tok with
  | start tag =>
    obtain ⟨hcontexts, hout⟩ := start_interpreted hwf h (handleStart_of_step hstep)
    exact ⟨[], by rw [interpretEvent, hcontexts], hout⟩
  | empty tag =>
    rw [step_empty] at hstep
    cases hstart : step checks tree (.start tag) s with
    | stop why out =>
      rw [hstart] at hstep
      cases hstep
    | next u =>
      rw [hstart] at hstep
      obtain ⟨hcontexts, hsame⟩ := start_interpreted hwf h (handleStart_of_step hstart)
      obtain ⟨evals, hclose, hout⟩ := close_interpreted (h.next hwf hstart) hstep
      rw [Spine.advance_start, hcontexts] at hclose
      exact ⟨evals, hclose, by rw [hout, hsame]⟩
  | close => exact close_interpreted h hstep
  | leaf leaf =>
    rw [interpretEvent]
    by_cases hsealed : Sealed tree z
    · obtain ⟨hcontexts, hout⟩ := leaf_unmoved h hsealed hstep
      exact ⟨[], by rw [if_pos hsealed, hcontexts], hout⟩
    · obtain ⟨hplace, hstream⟩ := not_or.mp hsealed
      obtain ⟨levels, rfl, htracks⟩ := h.levels (Nat.eq_zero_of_not_pos hplace)
      rw [htracks.levels_ok.walk_eq, Bool.not_eq_true] at hstream
      obtain ⟨hcontexts, hout⟩ := leaf_added htracks hstream hstep
      exact ⟨[], by rw [if_neg hsealed, hcontexts], hout⟩

/-- The event loop does to the frames what the interpreter does on the events, and makes its evaluations. -/
theorem events_interpreted (hwf : tree.WellFormed) (h : Follows tree z s)
    (hrun : eventLoop checks tree (ts.map .ok) s = .next s') :
    ∃ evals, interpretEvents checks tree z s.contextStack ts = .ok (s'.contextStack, evals) ∧
      s'.out = s.out.record evals := by
  induction ts generalizing z s with
  | nil =>
    cases hrun
    exact ⟨[], rfl, rfl⟩
  | cons tok ts ih =>
    obtain ⟨u, hstep, hrest⟩ := eventLoop_cons_next hrun
    obtain ⟨evals, hevent, hout⟩ := event_interpreted hwf h hstep
    obtain ⟨more, hmore, hout'⟩ := ih (h.next hwf hstep) hrest
    refine ⟨evals ++ more, ?_, by rw [hout', hout, Output.record_append]⟩
    rw [interpretEvents, hevent, ok_bind]
    dsimp only
    rw [hmore, ok_bind]
    rfl

/-- A loop that returns has made the evaluations of the interpreter on the events before the first error. -/
lemma run_interpreted (hwf : tree.WellFormed) (h : Follows tree z s) (events : List (Except XmlError Event))
    (hreturns : (eventLoop checks tree events s).Returns) :
    ∃ contexts evals, interpretEvents checks tree z s.contextStack (untilFault tree z events) =
      .ok (contexts, evals) ∧ (eventLoop checks tree events s).out = s.out.record evals := by
  induction events generalizing z s with
  | nil => exact ⟨_, [], rfl, rfl⟩
  | cons event events ih =>
    cases event with
    | error e => exact ⟨_, [], rfl, rfl⟩
    | ok tok =>
      rcases loop_head hwf h hreturns with ⟨e, hfault, hout⟩ | ⟨t, hstep, hfault, hloop⟩
      · rw [untilFault, hfault]
        exact ⟨_, [], rfl, hout⟩
      · rw [hloop] at hreturns ⊢
        obtain ⟨evals, hevent, hout⟩ := event_interpreted hwf h hstep
        obtain ⟨contexts, more, hmore, hout'⟩ := ih (h.next hwf hstep) hreturns
        refine ⟨contexts, evals ++ more, ?_, by rw [hout', hout, Output.record_append]⟩
        rw [untilFault, hfault, Option.isSome_none, if_neg Bool.false_ne_true, interpretEvents, hevent, ok_bind]
        dsimp only
        rw [hmore, ok_bind]
        rfl

lemma returns_of_parseFile {events : List (Except XmlError Event)}
    (h : ∀ p, (parseFile checks tree events).result ≠ .error (.panic p)) :
    (eventLoop checks tree events .init).Returns := by
  intro p out hloop
  apply h p
  unfold parseFile
  rw [hloop]

lemma parseFile_evaluated (checks : OverflowChecks) (tree : DescriptorTree R)
    (events : List (Except XmlError Event)) :
    (parseFile checks tree events).out.evaluated = (eventLoop checks tree events .init).out.evaluated := by
  unfold parseFile
  cases eventLoop checks tree events .init with
  | next s => rfl
  | stop why out => rfl

/-- The rules of a parse that returns have reported what is due. -/
theorem evaluated_due (hwf : tree.WellFormed) {events : List (Except XmlError Event)}
    (hreturns : ∀ p, (parseFile checks tree events).result ≠ .error (.panic p)) :
    (parseFile checks tree events).out.evaluated.flatMap Evaluation.diagnostics =
      dueDiagnostics checks tree events := by
  obtain ⟨contexts, evals, hevals, hout⟩ :=
    run_interpreted hwf (follows_init tree) events (returns_of_parseFile hreturns)
  rw [parseFile_evaluated, hout, Output.evaluated_record, dueDiagnostics]
  simp only [ParserState.init] at hevals ⊢
  rw [hevals, List.nil_append]

end Events

end XmlOxydizer

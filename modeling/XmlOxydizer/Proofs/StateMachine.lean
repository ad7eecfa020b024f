import XmlOxydizer.Proofs.EvaluationTrace

/-!
# The states of the event loop

Whatever events have been read, the stacks are in step with each other and with the mode of
the parser, and their height is the number of open elements. Hence the only panics are the
overflow of a sibling counter and of the rule results.
-/

namespace XmlOxydizer

open Markup

variable {R : Type}

/-- What the mode says about the stacks. -/
inductive ModeInvariant (tree : DescriptorTree R) (s : ParserState R) : Prop
  | streaming (hmode : s.mode = .streaming)
      (hcontexts : ∀ ctx ∈ s.contextStack, tree.isCapture ctx.descriptorId = false)
  | capturing (builder : CaptureBuilder) (depth : ℕ) (descriptorId : NodeId) (contextStackIndex : ℕ)
      (hmode : s.mode = .capturing builder depth descriptorId contextStackIndex)
      (hskip : s.skipDepth = 0) (hindex : contextStackIndex + 1 = s.contextStack.length)
      (hcontext : ∃ ctx, s.contextStack[contextStackIndex]? = some ctx ∧ ctx.descriptorId = descriptorId)
      (hcapture : tree.isCapture descriptorId = true) (hdepth : 1 ≤ depth)
      (hbuilder : depth = builder.stack.length)

/-- The invariant of the event loop. -/
structure StateInvariant (tree : DescriptorTree R) (s : ParserState R) : Prop where
  descriptors_length : s.descriptorStack.length = s.contextStack.length
  counters_length : s.siblingCounters.length = s.contextStack.length
  contains : ∀ ctx ∈ s.contextStack, tree.Contains ctx.descriptorId
  descriptors_eq : ∀ (i : ℕ) (ctx : NodeContext), s.contextStack[i]? = some ctx →
    s.descriptorStack[i]? = some (some ctx.descriptorId)
  root : ∀ ctx : NodeContext, s.contextStack[0]? = some ctx → tree.rootId = some ctx.descriptorId
  child : ∀ (i : ℕ) (p c : NodeContext), s.contextStack[i]? = some p → s.contextStack[i + 1]? = some c →
    ∃ tag, tree.IsChild p.descriptorId c.descriptorId tag
  mode : ModeInvariant tree s

/-- The elements that a state accounts for: a level for each context, and those that are
skipped or captured below. -/
def ParserState.openCount (s : ParserState R) : ℕ :=
  s.contextStack.length + s.skipDepth +
    match s.mode with
    | .streaming => 0
    | .capturing _ depth _ _ => depth - 1

section

variable [Rule R] {tree : DescriptorTree R} {levels : List Level} {rest : OpenElements}
  {s : ParserState R}

lemma OpenLevels.root_eq (hwf : tree.WellFormed) (h : OpenLevels tree levels) {l : Level}
    (hl : levels[0]? = some l) : l.id = ⟨0⟩ := by
  have hwalk := DescriptorTree.walk_ok hwf (tagsOf (levels.map Level.frame))
  rw [h.walk_eq] at hwalk
  have htags := hwalk.tags_eq 0 l.id (by simp [hl])
  have hcontains := (h.ok l (List.mem_of_getElem? hl)).contains
  rcases hwf.root_or_child hcontains with hroot | ⟨p, hp, hchild⟩
  · exact hroot
  · have hlen := congrArg List.length ((hwf.tags_child hchild).symm.trans htags)
    have hpos := List.length_pos_of_ne_nil (hwf.tags_ne_nil hp)
    simp only [List.length_append, List.length_singleton, List.length_take] at hlen
    omega

lemma OpenLevels.isChild (hwf : tree.WellFormed) (h : OpenLevels tree levels) {i : ℕ} {p c : Level}
    (hp : levels[i]? = some p) (hc : levels[i + 1]? = some c) : tree.IsChild p.id c.id c.tag := by
  obtain ⟨hi, rfl⟩ := List.getElem?_eq_some_iff.mp hp
  obtain ⟨hi', rfl⟩ := List.getElem?_eq_some_iff.mp hc
  have hlinked := List.isChain_iff_getElem.mp h.linked i hi'
  exact (hwf.child_concat [] (h.ok _ (List.getElem_mem hi)).contains).mp hlinked.child_eq

/-- In streaming mode no level is a capture. -/
lemma OpenLevels.streaming (hwf : tree.WellFormed) (h : OpenLevels tree levels)
    (hcapture : tree.inCapture (levels.map Level.id) = false) :
    ∀ l ∈ levels, tree.isCapture l.id = false := by
  have hwalk := DescriptorTree.walk_ok hwf (tagsOf (levels.map Level.frame))
  rw [h.walk_eq] at hwalk
  rcases List.eq_nil_or_concat' levels with rfl | ⟨ls, k, rfl⟩
  · simp
  · intro l hl
    rcases List.mem_append.mp hl with hl | hl
    · exact hwalk.streaming l.id (by simpa using ⟨l, hl, rfl⟩)
    · rw [List.mem_singleton.mp hl]
      simpa using hcapture

lemma Tracks.modeInvariant (hwf : tree.WellFormed) (h : Tracks tree levels rest s) :
    ModeInvariant tree s := by
  cases h.mode_ok with
  | streaming hcapture hmode hskip =>
    refine .streaming hmode fun ctx hctx => ?_
    rw [h.contextStack_eq] at hctx
    obtain ⟨l, hl, rfl⟩ := List.mem_map.mp hctx
    rw [(h.levels_ok.ok l hl).descriptorId_eq]
    exact h.levels_ok.streaming hwf hcapture l hl
  | capturing ls l b hlevels hcapture hb hmode hskip =>
    subst hlevels
    refine .capturing b _ l.id ls.length hmode hskip (by simp [h.contextStack_eq])
      ⟨l.ctx, by simp [h.contextStack_eq], h.levels_ok.last.descriptorId_eq⟩ hcapture (by simp) ?_
    simp [hb.stack_eq]

lemma Tracks.stateInvariant (hwf : tree.WellFormed) (h : Tracks tree levels rest s) :
    StateInvariant tree s := by
  have hlevel : ∀ (i : ℕ) (ctx : NodeContext), s.contextStack[i]? = some ctx →
      ∃ l, levels[i]? = some l ∧ l ∈ levels ∧ ctx.descriptorId = l.id := by
    intro i ctx hctx
    rw [h.contextStack_eq, List.getElem?_map, Option.map_eq_some_iff] at hctx
    obtain ⟨l, hl, rfl⟩ := hctx
    have hmem := List.mem_of_getElem? hl
    exact ⟨l, hl, hmem, (h.levels_ok.ok l hmem).descriptorId_eq⟩
  constructor
  case descriptors_length => simp [h.descriptorStack_eq, h.contextStack_eq]
  case counters_length => simp [h.siblingCounters_eq, h.contextStack_eq]
  case contains =>
    intro ctx hctx
    obtain ⟨i, hi⟩ := List.mem_iff_getElem?.mp hctx
    obtain ⟨l, -, hl, hid⟩ := hlevel i ctx hi
    rw [hid]
    exact (h.levels_ok.ok l hl).contains
  case descriptors_eq =>
    intro i ctx hctx
    obtain ⟨l, hl, -, hid⟩ := hlevel i ctx hctx
    simp [h.descriptorStack_eq, hl, hid]
  case root =>
    intro ctx hctx
    obtain ⟨l, hl, -, hid⟩ := hlevel 0 ctx hctx
    rw [hid, h.levels_ok.root_eq hwf hl, hwf.rootId_eq]
  case child =>
    intro i p c hp hc
    obtain ⟨pl, hpl, -, hpid⟩ := hlevel i p hp
    obtain ⟨cl, hcl, -, hcid⟩ := hlevel (i + 1) c hc
    rw [hpid, hcid]
    exact ⟨cl.tag, h.levels_ok.isChild hwf hpl hcl⟩
  case mode => exact h.modeInvariant hwf

omit [Rule R] in
lemma Tracks.openCount_eq (h : Tracks tree levels rest s) :
    s.openCount = (levels.map Level.frame ++ rest).length := by
  cases h.mode_ok with
  | streaming hcapture hmode hskip => simp [ParserState.openCount, hmode, hskip, h.contextStack_eq]
  | capturing ls l b hlevels hcapture hb hmode hskip =>
    simp [ParserState.openCount, hmode, hskip, h.contextStack_eq]

end

/-- Every state that the loop reaches satisfies the invariant, and accounts for the elements
that are open as long as no more elements have been closed than opened. The loop panics only
where a sibling counter or the rule results overflow. -/
theorem loop_invariant [Rule R] (t : BuiltTree R) (checks : OverflowChecks) :
    (∀ ts s, eventLoop checks t.tree (ts.map .ok) .init = .next s → StateInvariant t.tree s ∧
      ((∀ us, us <+: ts → Token.closes us ≤ Token.starts us) →
        Token.starts ts = s.openCount + Token.closes ts)) ∧
    ∀ events p out, eventLoop checks t.tree events .init = .stop (.panic p) out →
      checks = .checked ∧ (p = .addOverflow ∨ p = .shlOverflow) := by
  have hwf := t.wellFormed
  refine ⟨fun ts s hrun => ?_, fun events p out hrun => ?_⟩
  · obtain ⟨levels, rest, hz, htracks⟩ := follows_of_run hwf hrun
    refine ⟨htracks.stateInvariant hwf, fun hbalanced => ?_⟩
    have hopen := Spine.length_advanceAll ts [] (by simpa using hbalanced)
    rw [htracks.openCount_eq, hz, hopen]
    simp
  · have hok := run_ok checks hwf (follows_init t.tree) events
    rw [hrun] at hok
    generalize hr : Flow.stop (.panic p) out = r at hok
    cases hok with
    | next => cases hr
    | error => cases hr
    | overflow p' ts tok rest done hevents hchecked hcause =>
      cases hr
      refine ⟨hchecked, ?_⟩
      cases hcause with
      | counter => exact .inl rfl
      | shift => exact .inr rfl

/-- The sample document has two open elements when its box has been started. -/
theorem loop_invariant_sample :
    ∃ s, eventLoop .checked sampleTree.tree ((sampleDocument.tokens.take 6).map .ok) .init = .next s ∧
      StateInvariant sampleTree.tree s ∧ s.openCount = 2 := by
  have hgoes : (match eventLoop .checked sampleTree.tree ((sampleDocument.tokens.take 6).map .ok) .init with
      | .next _ => true
      | .stop _ _ => false) = true := by decide +kernel
  cases hrun : eventLoop .checked sampleTree.tree ((sampleDocument.tokens.take 6).map .ok) .init with
  | stop why out => rw [hrun] at hgoes; cases hgoes
  | next s =>
    obtain ⟨hinvariant, hcount⟩ := (loop_invariant sampleTree .checked).1 _ s hrun
    have hbalanced : ∀ us ∈ (sampleDocument.tokens.take 6).inits, Token.closes us ≤ Token.starts us := by
      decide +kernel
    have hopen := hcount fun us hus => hbalanced us ((List.mem_inits _ _).mpr hus)
    have hstarts : Token.starts (sampleDocument.tokens.take 6) = 3 := by decide +kernel
    have hcloses : Token.closes (sampleDocument.tokens.take 6) = 1 := by decide +kernel
    exact ⟨s, rfl, hinvariant, by omega⟩

end XmlOxydizer

import XmlOxydizer.Proofs.HandleStart

/-!
# Closing an element

`handleEnd` on a state that tracks the open elements. A skipped or captured element is
added to the element around it. A level that closes has its rules evaluated and leaves its
summary in the level around it.
-/

namespace XmlOxydizer

open Markup

variable {R : Type}

/-- The view on which the rules of a closing level are evaluated, with the levels around
it. -/
def Level.view (checks : OverflowChecks) (tree : DescriptorTree R) (ls : List Level) (l : Level) :
    NodeAccess :=
  if tree.isCapture l.id then
    SubtreeView.nodeAccess checks ({
      root := dom l.frame.label l.frame.content
      descriptorId := l.id
      index := l.ctx.index
      parentStack := ls.map Level.ctx
      tree } : SubtreeView R)
  else StreamingViewOwned.nodeAccess checks { ctx := l.ctx, parentStack := ls.map Level.ctx, tree }

/-- The evaluations at an end token. -/
def closingEvaluations (checks : OverflowChecks) (tree : DescriptorTree R) (levels : List Level)
    (rest : OpenElements) : List (Evaluation R) :=
  match rest, levels.getLast? with
  | [], some l => evaluationsOn (l.view checks tree levels.dropLast) (tree.desc l.id).rules
  | _, _ => []

lemma closingEvaluations_concat (checks : OverflowChecks) (tree : DescriptorTree R) (ls : List Level)
    (l : Level) : closingEvaluations checks tree (ls ++ [l]) [] =
      evaluationsOn (l.view checks tree ls) (tree.desc l.id).rules := by
  simp [closingEvaluations]

lemma closingEvaluations_below (checks : OverflowChecks) (tree : DescriptorTree R)
    (levels : List Level) {rest : OpenElements} (h : rest ≠ []) :
    closingEvaluations checks tree levels rest = [] := by
  cases rest with
  | nil => exact absurd rfl h
  | cons f rest => rfl

section Extend

variable {tree : DescriptorTree R} {levels ls : List Level} {l : Level} {rest r : OpenElements}
  {s : ParserState R} {g : Content}

/-- More content below the innermost level, or silent content in it, while skipping. -/
lemma Tracks.extend_streaming (h : Tracks tree levels rest s)
    (hcapture : tree.inCapture (levels.map Level.id) = false) (hmode : s.mode = .streaming)
    (hwalk : tree.walk (tagsOf (levels.map Level.frame ++ r)) = ⟨levels.map Level.id, r.length⟩)
    (hsilent : r = [] → ∀ l ∈ levels.getLast?, summarizedChildren tree l.id g = [] ∧
      (tree.keepsText l.id = true → directText g = "" ∧ TextReadable g)) :
    ∃ levels' rest', levels'.map Level.frame ++ rest' = Spine.extend (levels.map Level.frame ++ r) g ∧
      Tracks tree levels' rest' { s with skipDepth := r.length } := by
  rcases List.eq_nil_or_concat' r with rfl | ⟨r, f, rfl⟩
  · rcases List.eq_nil_or_concat' levels with rfl | ⟨ls, l, rfl⟩
    · exact ⟨[], [], rfl, h.levels_ok, rfl, h.contextStack_eq, h.descriptorStack_eq,
        h.siblingCounters_eq, h.attrPool_eq, .streaming rfl hmode rfl⟩
    · obtain ⟨hchildren, htext⟩ := hsilent rfl l (by simp)
      have hlast := h.levels_ok.last.extend_silent hchildren htext
      have hlevels := h.levels_ok.replace hlast rfl rfl rfl (by
        simp [h.levels_ok.counted, Level.summarizedTags, hchildren])
      refine ⟨ls ++ [l.extend g], [], by simp, hlevels, by simpa using hlevels.walk_eq, ?_, ?_, ?_,
        h.attrPool_eq, .streaming (by simpa using hcapture) hmode rfl⟩
      · simp [h.contextStack_eq]
      · simp [h.descriptorStack_eq]
      · simp [h.siblingCounters_eq]
  · have hz : levels.map Level.frame ++ (r ++ [⟨f.label, f.content ++ g⟩]) =
        Spine.extend (levels.map Level.frame ++ (r ++ [f])) g := by
      rw [← List.append_assoc, ← List.append_assoc, Spine.extend_concat]
    refine ⟨levels, r ++ [⟨f.label, f.content ++ g⟩], hz, h.levels_ok, ?_, h.contextStack_eq,
      h.descriptorStack_eq, h.siblingCounters_eq, h.attrPool_eq,
      .streaming hcapture hmode (by simp)⟩
    rw [hz, tagsOf_extend, hwalk]
    simp

/-- More content in or below the root of a capture, which the buffer has taken in. -/
lemma Tracks.extend_capturing {b : CaptureBuilder} (h : Tracks tree (ls ++ [l]) rest s)
    (hcapture : tree.isCapture l.id = true) (hskip : s.skipDepth = 0)
    (hwalk : tree.walk (tagsOf ((ls ++ [l]).map Level.frame ++ r)) =
      ⟨(ls ++ [l]).map Level.id, r.length⟩)
    (hb : BuilderOk tree l.id (Spine.extend (l.frame :: r) g) b) :
    ∃ levels' rest',
      levels'.map Level.frame ++ rest' = Spine.extend ((ls ++ [l]).map Level.frame ++ r) g ∧
      Tracks tree levels' rest' { s with mode := .capturing b (r.length + 1) l.id ls.length } := by
  rcases List.eq_nil_or_concat' r with rfl | ⟨r, f, rfl⟩
  · have hchildren := summarizedChildren_capture hcapture g
    have hlast := h.levels_ok.last.extend_silent hchildren
      (by simp [DescriptorTree.keepsText, hcapture])
    have hlevels := h.levels_ok.replace hlast rfl rfl rfl (by
      simp [h.levels_ok.counted, Level.summarizedTags, hchildren])
    refine ⟨ls ++ [l.extend g], [], by simp, hlevels, by simpa using hlevels.walk_eq, ?_, ?_, ?_,
      h.attrPool_eq, .capturing ls (l.extend g) b rfl hcapture ?_ rfl hskip⟩
    · simp [h.contextStack_eq]
    · simp [h.descriptorStack_eq]
    · simp [h.siblingCounters_eq]
    · have hz := Spine.extend_concat [] l.frame g
      rw [List.nil_append] at hz
      simpa [hz] using hb
  · have hz : (ls ++ [l]).map Level.frame ++ (r ++ [⟨f.label, f.content ++ g⟩]) =
        Spine.extend ((ls ++ [l]).map Level.frame ++ (r ++ [f])) g := by
      rw [← List.append_assoc, ← List.append_assoc, Spine.extend_concat]
    have hzs : Spine.extend (l.frame :: (r ++ [f])) g = l.frame :: (r ++ [⟨f.label, f.content ++ g⟩]) := by
      rw [← List.cons_append, Spine.extend_concat, List.cons_append]
    rw [hzs] at hb
    refine ⟨ls ++ [l], r ++ [⟨f.label, f.content ++ g⟩], hz, h.levels_ok, ?_, h.contextStack_eq,
      h.descriptorStack_eq, h.siblingCounters_eq, h.attrPool_eq,
      .capturing ls l b rfl hcapture hb (by simp) hskip⟩
    rw [hz, tagsOf_extend, hwalk]
    simp

end Extend

/-! ### A level closes -/

section Close

variable {checks : OverflowChecks} {tree : DescriptorTree R} {levels ls : List Level} {l : Level}
  {rest : OpenElements} {s : ParserState R}

/-- A level has closed: what was popped, and the summary that it has left. -/
structure LeavesSummary [Rule R] (checks : OverflowChecks) (tree : DescriptorTree R) (ls : List Level)
    (l : Level) (s s' : ParserState R) (summary : ChildSummary) : Prop where
  contexts_eq : s'.contextStack = pushSummary s.contextStack.dropLast summary
  descriptors_eq : s'.descriptorStack = s.descriptorStack.dropLast
  counters_eq : s'.siblingCounters = s.siblingCounters.dropLast
  mode_eq : s'.mode = .streaming
  skip_eq : s'.skipDepth = 0
  summarizes : Summarizes tree ⟨l.id, l.frame.label, l.frame.content⟩ summary
  index_eq : summary.index = l.ctx.index
  results_eq : ruleResultsOf checks (l.view checks tree ls) (tree.desc l.id).rules =
    .ok summary.ruleResults

/-- The outcome of `handleEnd`. -/
inductive EndOk [Rule R] (checks : OverflowChecks) (tree : DescriptorTree R) (levels : List Level)
    (rest : OpenElements) (s : ParserState R) : Flow R → Prop
  | next (levels' : List Level) (rest' : OpenElements) (s' : ParserState R)
      (hz : levels'.map Level.frame ++ rest' = Spine.advance (levels.map Level.frame ++ rest) .close)
      (htracks : Tracks tree levels' rest' s')
      (hout : s'.out = s.out.record (closingEvaluations checks tree levels rest))
      (hleaves : rest = [] → ∀ ls l, levels = ls ++ [l] →
        ∃ summary, LeavesSummary checks tree ls l s s' summary)
      (hstays : levels = [] ∨ rest ≠ [] → s'.contextStack = s.contextStack) :
      EndOk checks tree levels rest s (.next s')
  | overflow (ls : List Level) (l : Level) (done : List (Evaluation R)) (hchecked : checks = .checked)
      (hlevels : levels = ls ++ [l]) (hrest : rest = [])
      (hdone : done <+: evaluationsOn (l.view checks tree ls) (tree.desc l.id).rules)
      (hlen : 64 < (tree.desc l.id).rules.length)
      (hresults : ruleResultsOf checks (l.view checks tree ls) (tree.desc l.id).rules =
        .error .shlOverflow) :
      EndOk checks tree levels rest s (.stop (.panic .shlOverflow) (s.out.record done))

/-- The levels after the innermost one has closed and left a summary. -/
structure Closed (tree : DescriptorTree R) (ls : List Level) (l : Level) (summary : ChildSummary)
    (levels' : List Level) : Prop where
  levels_ok : OpenLevels tree levels'
  frames_eq : levels'.map Level.frame =
    Spine.extend (ls.map Level.frame) (.element l.frame.label l.frame.content .nil)
  contexts_eq : levels'.map Level.ctx = pushSummary (ls.map Level.ctx) summary
  ids_eq : levels'.map Level.id = ls.map Level.id
  counted_eq : levels'.map Level.counted = ls.map Level.counted
  streaming : tree.inCapture (levels'.map Level.id) = false

lemma OpenLevels.close (h : OpenLevels tree (ls ++ [l])) {summary : ChildSummary}
    (hsummary : Summarizes tree ⟨l.id, l.frame.label, l.frame.content⟩ summary)
    (hindex : summary.index = l.ctx.index) : ∃ levels', Closed tree ls l summary levels' := by
  rcases List.eq_nil_or_concat' ls with rfl | ⟨ls, p, rfl⟩
  · exact ⟨[], openLevels_nil, rfl, rfl, rfl, rfl, rfl⟩
  · obtain ⟨houter, -, hlink, hcapture⟩ := h.pop
    have hp : LevelOk tree { p with counted := p.summarizedTags tree } := houter.last
    let child : ChildElement := ⟨l.id, l.frame.label, l.frame.content⟩
    have hclosed := hp.extend_child hcapture child hlink.child_eq hsummary
      (hindex.trans hlink.index_eq)
    let q : Level := { p.extend (.element l.frame.label l.frame.content .nil) with
      ctx := { p.ctx with children := p.ctx.children ++ [summary] } }
    have hq : LevelOk tree q :=
      ⟨hclosed.contains, hclosed.descriptorId_eq, hclosed.name_ok, hclosed.attrs_eq, hclosed.attrs_ok,
        hclosed.text_eq, hclosed.text_ok, hclosed.children, hclosed.indices⟩
    have hcounted : q.counted = q.summarizedTags tree := by
      have hnew := summarizedChildren_declared hcapture hlink.child_eq l.frame.content
      have hpl := hlink.counted_eq
      simp only [Level.summarizedTags] at hpl
      simp [q, Level.summarizedTags, hnew, hpl, ChildElement.tag, Level.tag]
    refine ⟨ls ++ [q], houter.replace hq rfl rfl rfl hcounted, ?_, ?_, ?_, ?_, ?_⟩
    · simp [q]
    · simp [q, pushSummary]
    · simp [q]
    · simp [q]
    · simpa [q] using hcapture

/-- The state after a level has closed. -/
lemma Tracks.close (h : Tracks tree (ls ++ [l]) [] s) {summary : ChildSummary} {levels' : List Level}
    (hclosed : Closed tree ls l summary levels') {s' : ParserState R}
    (hcontexts : s'.contextStack = pushSummary (ls.map Level.ctx) summary)
    (hdescriptors : s'.descriptorStack = s.descriptorStack.dropLast)
    (hcounters : s'.siblingCounters = s.siblingCounters.dropLast)
    (hpool : s'.attrPool = s.attrPool) (hmode : s'.mode = .streaming) (hskip : s'.skipDepth = 0) :
    Tracks tree levels' [] s' := by
  have hids := congrArg (List.map some) hclosed.ids_eq
  have htallies := congrArg (List.map tally) hclosed.counted_eq
  simp only [List.map_map, Function.comp_def] at hids htallies
  refine ⟨hclosed.levels_ok, by simpa using hclosed.levels_ok.walk_eq, ?_, ?_, ?_, ?_,
    .streaming hclosed.streaming hmode hskip⟩
  · rw [hcontexts, hclosed.contexts_eq]
  · simp [hdescriptors, h.descriptorStack_eq, hids]
  · simp [hcounters, h.siblingCounters_eq, htallies]
  · rw [hpool, h.attrPool_eq]

lemma recycleCounters_eq (counters : List Counters) (c : Counters)
    (h : s.siblingCounters = counters ++ [c]) :
    recycleCounters s = { s with
      siblingCounters := s.siblingCounters.dropLast, siblingPool := s.siblingPool ++ [c] } := by
  simp [recycleCounters, h]

/-- The needs of a summary are kept by the child. -/
lemma keepsAttrs_of_summaryNeeds {id : NodeId} (h : (tree.desc id).summaryNeeds.has 0 = true) :
    tree.keepsAttrs id = true := by
  simp [DescriptorTree.keepsAttrs, DescriptorNode.needAttrs, h]

lemma keepsText_of_summaryNeeds {id : NodeId} (hcapture : tree.isCapture id = false)
    (h : (tree.desc id).summaryNeeds.has 1 = true) : tree.keepsText id = true := by
  simp [DescriptorTree.keepsText, DescriptorNode.needText, h, hcapture]

lemma summarizes_streaming (hl : LevelOk tree l) (hcapture : tree.isCapture l.id = false)
    (ruleResults : RuleResults) :
    Summarizes tree ⟨l.id, l.frame.label, l.frame.content⟩
      { attrs := if (tree.desc l.id).summaryNeeds.has 0 then l.ctx.attrs else []
        text := if (tree.desc l.id).summaryNeeds.has 1 then l.ctx.text else ""
        descriptorId := l.ctx.descriptorId
        index := l.ctx.index
        ruleResults } := by
  constructor
  case descriptorId_eq => exact hl.descriptorId_eq
  case attrs_eq =>
    by_cases h : (tree.desc l.id).summaryNeeds.has 0 = true
    · simp [h, hl.attrs_eq, keepsAttrs_of_summaryNeeds h]
    · simp [h]
  case attrs_ok => exact fun h => hl.attrs_ok (keepsAttrs_of_summaryNeeds h)
  case text_eq =>
    by_cases h : (tree.desc l.id).summaryNeeds.has 1 = true
    · simp [h, hl.text_eq, keepsText_of_summaryNeeds hcapture h]
    · simp [h]
  case text_ok => exact fun h => hl.text_ok (keepsText_of_summaryNeeds hcapture h)

lemma summarizes_capture (hl : LevelOk tree l) (hread : Readable l.frame.content)
    (ruleResults : RuleResults) :
    Summarizes tree ⟨l.id, l.frame.label, l.frame.content⟩
      { attrs := if (tree.desc l.id).summaryNeeds.has 0 then l.ctx.attrs else []
        text := if (tree.desc l.id).summaryNeeds.has 1 then
          (dom l.frame.label l.frame.content).text else ""
        descriptorId := l.id
        index := l.ctx.index
        ruleResults } := by
  constructor
  case descriptorId_eq => rfl
  case attrs_eq =>
    by_cases h : (tree.desc l.id).summaryNeeds.has 0 = true
    · simp [h, hl.attrs_eq, keepsAttrs_of_summaryNeeds h]
    · simp [h]
  case attrs_ok => exact fun h => hl.attrs_ok (keepsAttrs_of_summaryNeeds h)
  case text_eq => rfl
  case text_ok => exact fun _ => hread.text

/-- A level closes in streaming mode. -/
lemma end_streaming [Rule R] (h : Tracks tree (ls ++ [l]) [] s) (hcapture : tree.isCapture l.id = false)
    (hmode : s.mode = .streaming) (hskip : s.skipDepth = 0) :
    EndOk checks tree (ls ++ [l]) [] s (closeStreaming checks tree s) := by
  have hl := h.levels_ok.last
  have hcontexts : s.contextStack = ls.map Level.ctx ++ [l.ctx] := by simp [h.contextStack_eq]
  have hview : StreamingViewOwned.nodeAccess checks
      ({ ctx := l.ctx, parentStack := ls.map Level.ctx, tree } : StreamingViewOwned R) =
      l.view checks tree ls := by
    simp [Level.view, hcapture]
  have hrecycle := recycleCounters_eq (s := { s with descriptorStack := s.descriptorStack.dropLast })
    (ls.map fun k => tally k.counted) (tally l.counted) (by simp [h.siblingCounters_eq])
  have hget : tree.get l.ctx.descriptorId = .ok (tree.desc l.id) := by
    rw [hl.descriptorId_eq, DescriptorTree.get_eq hl.contains]
  rw [closeStreaming, hrecycle]
  simp only [hcontexts, List.getLast?_concat, List.dropLast_concat, hget,
    orPanic_ok, Flow.attempt, hview, NodeNeeds.contains_attrs, NodeNeeds.contains_text]
  have hrules := evaluateRules_spec checks (l.view checks tree ls) (tree.desc l.id).rules 0 .empty s.out
  have hresults := evaluateRules_snd checks (l.view checks tree ls) _ (tree.desc l.id).rules (fun _ _ => rfl)
    0 .empty ⟨[], [], []⟩ s.out
  generalize evaluateRules checks (l.view checks tree ls) (tree.desc l.id).rules 0 .empty s.out = r
    at hrules hresults ⊢
  cases hrules with
  | overflow done hdone hchecked hlen =>
    simp only [orPanic_error]
    exact .overflow ls l done hchecked rfl rfl hdone (by omega) hresults
  | all ruleResults =>
    simp only [orPanic_ok]
    have hsummary := summarizes_streaming hl hcapture ruleResults
    obtain ⟨levels', hclosed⟩ := h.levels_ok.close hsummary rfl
    refine .next levels' [] _ (by simp [hclosed.frames_eq]) ?_ (by rw [closingEvaluations_concat]) ?_
      (by simp)
    · exact h.close hclosed rfl rfl rfl rfl hmode hskip
    · intro _ ls' l' hl'
      obtain ⟨rfl, hll⟩ := List.append_inj' hl' rfl
      obtain rfl := List.singleton_inj.mp hll
      exact ⟨_, by simp [hcontexts], rfl, rfl, hmode, hskip, hsummary, rfl, hresults⟩

/-- A level closes in capture mode. -/
lemma end_capture [Rule R] {b : CaptureBuilder} (h : Tracks tree (ls ++ [l]) [] s)
    (hcapture : tree.isCapture l.id = true) (hb : BuilderOk tree l.id [l.frame] b)
    (hskip : s.skipDepth = 0) :
    EndOk checks tree (ls ++ [l]) [] s
      (closeCapture checks tree b l.id ls.length { s with mode := .streaming }) := by
  have hl := h.levels_ok.last
  have hread := (hb.readable l.frame (by simp)).2
  have hcontexts : s.contextStack = ls.map Level.ctx ++ [l.ctx] := by simp [h.contextStack_eq]
  have hview : SubtreeView.nodeAccess checks ({
      root := dom l.frame.label l.frame.content
      descriptorId := l.id
      index := l.ctx.index
      parentStack := ls.map Level.ctx
      tree } : SubtreeView R) = l.view checks tree ls := by
    simp [Level.view, hcapture]
  have hctx : index s.contextStack ls.length = .ok l.ctx := index_ok (by simp [hcontexts])
  have hparent : sliceTo s.contextStack ls.length = .ok (ls.map Level.ctx) := by
    rw [sliceTo_ok (by simp [hcontexts])]
    simp [hcontexts]
  obtain ⟨b', hend, hfinal⟩ := bind_eq_ok.mp hb.finalize
  simp only [closeCapture, hend, hfinal, DescriptorTree.get_eq hl.contains, hctx, hparent, ok_bind,
    except_pure, orPanic_ok, Flow.attempt, hview, NodeNeeds.contains_attrs, NodeNeeds.contains_text]
  have hrules := evaluateRules_spec checks (l.view checks tree ls) (tree.desc l.id).rules 0 .empty s.out
  have hresults := evaluateRules_snd checks (l.view checks tree ls) _ (tree.desc l.id).rules (fun _ _ => rfl)
    0 .empty ⟨[], [], []⟩ s.out
  generalize evaluateRules checks (l.view checks tree ls) (tree.desc l.id).rules 0 .empty s.out = r
    at hrules hresults ⊢
  cases hrules with
  | overflow done hdone hchecked hlen =>
    simp only [orPanic_error]
    exact .overflow ls l done hchecked rfl rfl hdone (by omega) hresults
  | all ruleResults =>
    have hsummary := summarizes_capture hl hread ruleResults
    obtain ⟨levels', hclosed⟩ := h.levels_ok.close hsummary rfl
    -- taking the attributes out changes only the context that is popped
    have hstack : ∀ take : Bool, ∃ ctx, (if take = true then
        s.contextStack.set ls.length { l.ctx with attrs := [] } else s.contextStack) =
          ls.map Level.ctx ++ [ctx] := by
      intro take
      cases take with
      | true => exact ⟨{ l.ctx with attrs := [] }, by simp [hcontexts]⟩
      | false => exact ⟨l.ctx, by simp [hcontexts]⟩
    obtain ⟨ctx, hctx'⟩ := hstack ((tree.desc l.id).summaryNeeds.has 0)
    simp only [orPanic_ok, hctx', List.getLast?_concat, unwrap_some, List.dropLast_concat]
    have hrecycle := fun s' : ParserState R => recycleCounters_eq (s := s')
      (ls.map fun k => tally k.counted) (tally l.counted)
    rw [hrecycle _ (by simp [h.siblingCounters_eq])]
    refine .next levels' [] _ (by simp [hclosed.frames_eq]) ?_ (by rw [closingEvaluations_concat]) ?_
      (by simp)
    · exact h.close hclosed rfl rfl rfl rfl rfl hskip
    · intro _ ls' l' hl'
      obtain ⟨rfl, hll⟩ := List.append_inj' hl' rfl
      obtain rfl := List.singleton_inj.mp hll
      exact ⟨_, by simp [hcontexts], rfl, rfl, rfl, hskip, hsummary, rfl, hresults⟩

end Close

/-- `handleEnd` on a state that tracks the open elements. -/
theorem end_ok [Rule R] (checks : OverflowChecks) {tree : DescriptorTree R} {levels : List Level}
    {rest : OpenElements} {s : ParserState R} (h : Tracks tree levels rest s) :
    EndOk checks tree levels rest s (handleEnd checks tree s) := by
  cases h.mode_ok with
  | streaming hcapture hmode hskip =>
    rcases List.eq_nil_or_concat' rest with rfl | ⟨r, f, rfl⟩
    · rw [List.length_nil] at hskip
      simp only [handleEnd, hskip, gt_iff_lt, lt_irrefl, if_false, hmode]
      rcases List.eq_nil_or_concat' levels with rfl | ⟨ls, l, rfl⟩
      · have hclose : closeStreaming checks tree s =
            .next { s with descriptorStack := s.descriptorStack.dropLast } := by
          have hcounters : s.siblingCounters = [] := by simp [h.siblingCounters_eq]
          have hcontexts : s.contextStack = [] := by simp [h.contextStack_eq]
          simp [closeStreaming, recycleCounters, hcounters, hcontexts]
        rw [hclose]
        refine .next [] [] _ rfl ?_ (by simp [closingEvaluations]) (by simp) (fun _ => rfl)
        exact ⟨openLevels_nil, rfl, h.contextStack_eq, by simp [h.descriptorStack_eq],
          h.siblingCounters_eq, h.attrPool_eq, .streaming rfl hmode hskip⟩
      · exact end_streaming h (by simpa using hcapture) hmode hskip
    · have hpos : s.skipDepth > 0 := by simp [hskip]
      have hend : handleEnd checks tree s = .next { s with skipDepth := r.length } := by
        simp [handleEnd, hskip]
      have hwalk := h.walk_eq
      rw [← List.append_assoc, tagsOf_append, tagsOf_cons, tagsOf_nil, List.length_append,
        List.length_singleton] at hwalk
      have hsilent : r = [] → ∀ l ∈ levels.getLast?,
          summarizedChildren tree l.id (.element f.label f.content .nil) = [] ∧
          (tree.keepsText l.id = true → directText (.element f.label f.content .nil) = "" ∧
            TextReadable (.element f.label f.content .nil)) := by
        rintro rfl l hl
        refine ⟨summarizedChildren_undeclared ?_ f.content, by simp⟩
        have hundeclared : tree.child (levels.map Level.id) f.label.tagName = none := by
          rw [List.append_nil, DescriptorTree.walk_concat, h.levels_ok.walk_eq, Position.enter,
            if_neg (by simp [hcapture])] at hwalk
          split at hwalk
          · simp at hwalk
          · assumption
        simpa [DescriptorTree.child, Option.mem_def.mp hl] using hundeclared
      obtain ⟨levels', rest', hz, htracks⟩ :=
        h.extend_streaming hcapture hmode (walk_leave hwalk) hsilent
      rw [hend]
      refine .next levels' rest' _ ?_ htracks (by rw [closingEvaluations_below _ _ _ (by simp)]; rfl)
        (by simp) (fun _ => rfl)
      rw [hz, ← List.append_assoc, Spine.advance_close]
  | capturing ls l b hlevels hcapture hb hmode hskip =>
    subst hlevels
    rcases List.eq_nil_or_concat' rest with rfl | ⟨r, f, rfl⟩
    · have hend : handleEnd checks tree s =
          closeCapture checks tree b l.id ls.length { s with mode := .streaming } := by
        simp [handleEnd, hskip, hmode, usizeSub, Flow.attempt]
      rw [hend]
      exact end_capture h hcapture hb hskip
    · obtain ⟨b', hb', hbuilder⟩ := hb.endElement (l.frame :: r) (by simp)
      have hend : handleEnd checks tree s =
          .next { s with mode := .capturing b' (r.length + 1) l.id ls.length } := by
        simp [handleEnd, hskip, hmode, usizeSub, Flow.attempt, hb']
      have hwalk := h.walk_eq
      rw [← List.append_assoc, tagsOf_append, tagsOf_cons, tagsOf_nil, List.length_append,
        List.length_singleton] at hwalk
      obtain ⟨levels', rest', hz, htracks⟩ :=
        h.extend_capturing hcapture hskip (walk_leave hwalk) hbuilder
      rw [hend]
      refine .next levels' rest' _ ?_ htracks (by rw [closingEvaluations_below _ _ _ (by simp)]; rfl)
        (by simp) (fun _ => rfl)
      rw [hz, ← List.append_assoc, Spine.advance_close]

end XmlOxydizer

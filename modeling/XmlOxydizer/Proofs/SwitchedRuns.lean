import XmlOxydizer.Proofs.Interpreter
import XmlOxydizer.Proofs.PairedViews
import XmlOxydizer.Proofs.ResultBits
import XmlOxydizer.Proofs.SwitchedTrees

/-!
# Runs in trees that differ in one access mode

Two runs on one stream of events, in trees that differ in the access mode of node `n`. Outside the elements
of `n` they have the same stack frames. Inside such an element the first run goes on with frames of its own
while the second one captures. Behind it the frames are the same again if the rules of `n` have set the same
bits in both runs.
-/

namespace XmlOxydizer

open Markup

variable {R : Type}

/-- The bits that a list of rules sets are the same on both views. -/
def SameBits [Rule R] (rules : List R) (view view' : NodeAccess) : Prop :=
  ∀ b, (∃ i rule, rules[i]? = some rule ∧ Passes view rule ∧ i % 64 = b) ↔
    ∃ i rule, rules[i]? = some rule ∧ Passes view' rule ∧ i % 64 = b

lemma sameBits_iff [Rule R] {checks : OverflowChecks} {rules : List R} {view view' : NodeAccess}
    {results results' : RuleResults} (h : ruleResultsOf checks view rules = .ok results)
    (h' : ruleResultsOf checks view' rules = .ok results') :
    SameBits rules view view' ↔ results = results' := by
  unfold SameBits
  simp only [← has_ruleResultsOf h, ← has_ruleResultsOf h']
  refine ⟨fun hbits => RuleResults.ext_has fun b => ?_, fun heq b => by rw [heq]⟩
  exact Bool.eq_iff_iff.mpr (hbits b)

/-! ### Paths outside the node -/

/-- No element on the path is of node `n`. -/
def Off (tree : DescriptorTree R) (n : NodeId) (path : List String) : Prop :=
  ∀ k, tree.declaredAt (path.take k) ≠ some n

section Paths

variable [Rule R] {tree tree' : DescriptorTree R} {n : NodeId} {path : List String} {tag : String}

omit [Rule R] in
lemma Off.take (h : Off tree n path) (k : ℕ) : Off tree n (path.take k) := by
  intro j
  rw [List.take_take]
  exact h _

omit [Rule R] in
lemma off_concat (h : Off tree n path) (htag : tree.declaredAt (path ++ [tag]) ≠ some n) :
    Off tree n (path ++ [tag]) := by
  intro k
  rcases Nat.lt_or_ge path.length k with hlt | hle
  · rwa [List.take_of_length_le (by simpa using hlt)]
  · rw [List.take_append_of_le_length hle]
    exact h k

lemma off_nil (hwf : tree.WellFormed) : Off tree n [] := by
  intro k hn
  obtain ⟨hcontains, htags⟩ := hwf.declaredAt_eq_some.mp hn
  rw [List.take_nil] at htags
  exact hwf.tags_ne_nil hcontains htags

lemma Off.ne_of_mem (hwf : tree.WellFormed) (h : Off tree n path) {id : NodeId}
    (hid : id ∈ (tree.walk path).ids) : id ≠ n := by
  rintro rfl
  have hok := DescriptorTree.walk_ok hwf path
  obtain ⟨i, hi⟩ := List.mem_iff_getElem?.mp hid
  exact h (i + 1) (hwf.declaredAt_eq_some.mpr ⟨hok.contains id hid, hok.tags_eq i id hi⟩)

/-- No path that ends at an element of the node goes through another one. -/
lemma off_above (hwf : tree.WellFormed) (hn : tree.declaredAt (path ++ [tag]) = some n) : Off tree n path := by
  intro k hk
  obtain ⟨-, htags⟩ := hwf.declaredAt_eq_some.mp hn
  obtain ⟨-, htags'⟩ := hwf.declaredAt_eq_some.mp hk
  have hlength := congrArg List.length (htags.symm.trans htags')
  rw [List.length_append, List.length_singleton, List.length_take] at hlength
  omega

omit [Rule R] in
/-- Below the root of a capture nothing is looked up. -/
lemma walk_captured (more : List String) (h : tree.inCapture (tree.walk path).ids = true) :
    tree.walk (path ++ more) = ⟨(tree.walk path).ids, (tree.walk path).below + more.length⟩ := by
  induction more using List.reverseRecOn with
  | nil => simp
  | append_singleton more tag ih =>
    rw [← List.append_assoc, DescriptorTree.walk_concat, ih, Position.enter, if_pos (.inr h)]
    simp [Nat.add_assoc]

omit [Rule R] in
lemma Switched.inCapture_eq (h : Switched tree tree' n) {ids : List NodeId} (hids : ∀ id ∈ ids, id ≠ n) :
    tree.inCapture ids = tree'.inCapture ids := by
  rcases List.eq_nil_or_concat' ids with rfl | ⟨ids, last, rfl⟩
  · rfl
  · rw [DescriptorTree.inCapture_concat, DescriptorTree.inCapture_concat, h.capture_eq last (hids last (by simp))]

variable (hwf : tree.WellFormed) (hwf' : tree'.WellFormed) (h : Switched tree tree' n)

include hwf hwf' h

lemma Switched.walk_off (hoff : Off tree n path) : tree.walk path = tree'.walk path := by
  induction path using List.reverseRecOn with
  | nil => rfl
  | append_singleton path tag ih =>
    have habove : Off tree n path := by simpa using hoff.take path.length
    refine h.walk_concat hwf hwf' (ih habove) fun hn => ?_
    exact absurd hn (by simpa using habove path.length)

lemma Switched.sealed_iff {z : OpenElements} (hoff : Off tree n (tagsOf z)) : Sealed tree z ↔ Sealed tree' z := by
  rw [Sealed, Sealed, ← h.walk_off hwf hwf' hoff, h.inCapture_eq fun id => hoff.ne_of_mem hwf]

/-- The second tree captures at an element of the node and below it. -/
lemma Switched.walk_inside {k : ℕ} (hn : tree.declaredAt (path.take (k + 1)) = some n) :
    (tree'.walk path).below = path.length - (k + 1) ∧ tree'.inCapture (tree'.walk path).ids = true := by
  have hat := (h.evaluatedAt_eq hwf hwf' hn).2
  rw [DescriptorTree.evaluatedAt_eq_walk hwf'] at hat
  split at hat
  case isFalse => cases hat
  case isTrue hzero =>
    obtain ⟨ids, hids⟩ := List.getLast?_eq_some_iff.mp hat
    have hcapture : tree'.inCapture (tree'.walk (path.take (k + 1))).ids = true := by
      rw [hids, DescriptorTree.inCapture_concat, h.captured]
    have hwalk := walk_captured (path.drop (k + 1)) hcapture
    rw [List.take_append_drop, hzero, Nat.zero_add, List.length_drop] at hwalk
    rw [hwalk]
    exact ⟨rfl, hcapture⟩

end Paths

/-! ### Stack frames outside the node -/

section Frames

variable [Rule R] {checks : OverflowChecks} {tree tree' : DescriptorTree R} {n id : NodeId}
  {z : OpenElements} {contexts : List NodeContext} {tag : BytesStart}

omit [Rule R] in
lemma Follows.ids_eq {s : ParserState R} (h : Follows tree z s) :
    s.contextStack.map NodeContext.descriptorId = (tree.walk (tagsOf z)).ids := by
  obtain ⟨levels, rest, rfl, htracks⟩ := h
  rw [htracks.ids_eq, htracks.walk_eq]

omit [Rule R] in
lemma Switched.openedIndex_eq (h : Switched tree tree' n) :
    (openedContext tree contexts tag id).index = (openedContext tree' contexts tag id).index := by
  unfold openedContext
  simp only [h.tag_eq]

omit [Rule R] in
lemma Switched.get_eq (h : Switched tree tree' n) {β : Type} (f : DescriptorNode R → β)
    (hf : ∀ id, f (tree.desc id) = f (tree'.desc id)) (hid : tree.Contains id) :
    (tree.get id).map f = (tree'.get id).map f := by
  rw [DescriptorTree.get_eq hid, DescriptorTree.get_eq ((h.contains_iff id).mp hid)]
  simp [Except.map, hf]

omit [Rule R] in
variable (checks) in
lemma Switched.closingView_eq (h : Switched tree tree' n) {ctx : NodeContext}
    (hid : tree.Contains ctx.descriptorId) (hne : ctx.descriptorId ≠ n) (content : Content) :
    closingView checks tree contexts ctx tag content = closingView checks tree' contexts ctx tag content := by
  unfold closingView
  rw [h.capture_eq _ hne]
  split
  · simp only [SubtreeView.nodeAccess, h.get_eq DescriptorNode.fullPath h.path_eq hid]
  · simp only [StreamingViewOwned.nodeAccess, h.get_eq DescriptorNode.fullPath h.path_eq hid,
      h.get_eq (fun node => node.tag.str) (fun id => by rw [h.tag_eq]) hid]

variable (hwf : tree.WellFormed) (hwf' : tree'.WellFormed) (h : Switched tree tree' n)

include hwf hwf' h

lemma Switched.keeps_eq (hid : tree.Contains id) (hne : id ≠ n) :
    tree.keepsAttrs id = tree'.keepsAttrs id ∧ tree.keepsText id = tree'.keepsText id := by
  have hsummary := h.summaryNeeds_eq hwf hwf' hid
  simp [DescriptorTree.keepsAttrs, DescriptorTree.keepsText, DescriptorNode.needAttrs,
    DescriptorNode.needText, h.capture_eq id hne, h.needs_eq id 0 (by decide), h.needs_eq id 1 (by decide),
    hsummary]

lemma Switched.openedContext_eq (hid : tree.Contains id) (hne : id ≠ n) :
    openedContext tree contexts tag id = openedContext tree' contexts tag id := by
  unfold openedContext
  simp only [h.tag_eq, (h.keeps_eq hwf hwf' hid hne).1]

lemma Switched.summaryOf_eq {ctx ctx' : NodeContext} (hid : tree.Contains ctx.descriptorId)
    (hids : ctx.descriptorId = ctx'.descriptorId) (hindex : ctx.index = ctx'.index) (content : Content)
    (results : RuleResults) :
    summaryOf tree ctx tag content results = summaryOf tree' ctx' tag content results := by
  unfold summaryOf
  rw [← hids, hindex, h.summaryNeeds_eq hwf hwf' hid]

end Frames

/-! ### Two runs in step -/

/-- The stack frames of two runs whose open elements have this path: the same frames outside the node, and
inside an element of it the same frames around the element. -/
inductive InStep (tree : DescriptorTree R) (n : NodeId) (path : List String) :
    List NodeContext → List NodeContext → Prop
  | outside (contexts : List NodeContext) (hoff : Off tree n path) : InStep tree n path contexts contexts
  | inside (outer inner : List NodeContext) (ctx ctx' : NodeContext) (hlt : outer.length < path.length)
      (hn : tree.declaredAt (path.take (outer.length + 1)) = some n) (hindex : ctx.index = ctx'.index) :
      InStep tree n path (outer ++ ctx :: inner) (outer ++ [ctx'])

/-- A change of the last frame leaves the frames before it as they are. -/
lemma concat_below {outer inner contexts : List NodeContext} {ctx last last' : NodeContext}
    (h : outer ++ ctx :: inner = contexts ++ [last]) (hindex : last'.index = last.index) :
    ∃ ctx₂ inner₂, contexts ++ [last'] = outer ++ ctx₂ :: inner₂ ∧ ctx₂.index = ctx.index := by
  rcases List.eq_nil_or_concat' inner with rfl | ⟨inner, x, rfl⟩
  · obtain ⟨rfl, hlast⟩ := List.append_inj' h rfl
    obtain rfl := List.singleton_inj.mp hlast
    exact ⟨last', [], rfl, hindex⟩
  · rw [← List.cons_append, ← List.append_assoc] at h
    obtain ⟨rfl, -⟩ := List.append_inj' h rfl
    exact ⟨ctx, inner ++ [last'], by simp, rfl⟩

lemma addLeaf_below (tree : DescriptorTree R) (outer inner : List NodeContext) (ctx : NodeContext)
    (leaf : LeafEvent) : ∃ ctx₂ inner₂, addLeaf tree (outer ++ ctx :: inner) leaf = outer ++ ctx₂ :: inner₂ ∧
      ctx₂.index = ctx.index := by
  obtain ⟨contexts, last, hlast⟩ := (List.eq_nil_or_concat' (outer ++ ctx :: inner)).resolve_left (by simp)
  rw [hlast, addLeaf, List.getLast?_concat]
  dsimp only
  split
  · rw [List.dropLast_concat]
    exact concat_below hlast rfl
  · exact ⟨ctx, inner, hlast.symm, rfl⟩

lemma pushSummary_below (outer inner : List NodeContext) (ctx : NodeContext) (summary : ChildSummary) :
    ∃ ctx₂ inner₂, pushSummary (outer ++ ctx :: inner) summary = outer ++ ctx₂ :: inner₂ ∧
      ctx₂.index = ctx.index := by
  obtain ⟨contexts, last, hlast⟩ := (List.eq_nil_or_concat' (outer ++ ctx :: inner)).resolve_left (by simp)
  rw [hlast, pushSummary, List.getLast?_concat]
  dsimp only
  rw [List.dropLast_concat]
  exact concat_below hlast rfl

lemma tagsOf_close (z : OpenElements) : tagsOf (z.advance (.close : Event)) = (tagsOf z).take (z.length - 1) := by
  rcases List.eq_nil_or_concat' z with rfl | ⟨w, f, rfl⟩
  · rfl
  · rw [Spine.advance_close, tagsOf_extend]
    simp

section Steps

variable [Rule R] {checks : OverflowChecks} {tree tree' : DescriptorTree R} {n : NodeId} {z : OpenElements}
  {s s' t t' : ParserState R} (hwf : tree.WellFormed) (hwf' : tree'.WellFormed) (h : Switched tree tree' n)
  (hs : Follows tree z s) (hstep : InStep tree n (tagsOf z) s.contextStack s'.contextStack)

include hwf hwf' h hs hstep

/-- An element opens in both runs. -/
lemma Switched.start_inStep (tag : BytesStart) : InStep tree n (tagsOf z ++ [tag.tagName])
    (interpretStart tree z s.contextStack tag) (interpretStart tree' z s'.contextStack tag) := by
  have hids := hs.ids_eq
  generalize s.contextStack = contexts at hids hstep ⊢
  generalize s'.contextStack = contexts' at hstep ⊢
  cases hstep with
  | inside outer inner ctx ctx' hlt hn hindex =>
    have hsealed : Sealed tree' z := .inr (h.walk_inside hwf hwf' hn).2
    have hgrows : ∃ more, interpretStart tree z (outer ++ ctx :: inner) tag =
        outer ++ ctx :: (inner ++ more) := by
      unfold interpretStart
      split
      · exact ⟨[], by simp⟩
      · split
        case h_1 => exact ⟨[], by simp⟩
        case h_2 id _ => exact ⟨[openedContext tree (outer ++ ctx :: inner) tag id], by simp⟩
    obtain ⟨more, hmore⟩ := hgrows
    rw [hmore, interpretStart, if_pos hsealed]
    refine .inside outer _ ctx ctx' ?_ ?_ hindex
    · rw [List.length_append]
      omega
    · rwa [List.take_append_of_le_length hlt]
  | outside _ hoff =>
    have hsealed := h.sealed_iff hwf hwf' hoff
    have hchild := h.child_eq hwf hwf' (tree.walk (tagsOf z)).ids tag.tagName
    have hat : tree.evaluatedAt (tagsOf z ++ [tag.tagName]) =
        if Sealed tree z then none else tree.child (tree.walk (tagsOf z)).ids tag.tagName :=
      DescriptorTree.evaluatedAt_concat hwf (tagsOf z) tag.tagName
    by_cases hn : tree.declaredAt (tagsOf z ++ [tag.tagName]) = some n
    · rw [(h.evaluatedAt_eq hwf hwf' hn).1] at hat
      split at hat
      case isTrue => cases hat
      case isFalse hopen =>
        have hlength := congrArg List.length hids
        have hwalk := (DescriptorTree.walk_ok hwf (tagsOf z)).length_eq
        rw [List.length_map] at hlength
        rw [Nat.eq_zero_of_not_pos (not_or.mp hopen).1, Nat.add_zero, ← hlength] at hwalk
        rw [interpretStart, interpretStart, if_neg hopen, if_neg (mt hsealed.mpr hopen), hids, ← hchild, ← hat]
        refine .inside contexts [] _ _ ?_ ?_ h.openedIndex_eq
        · rw [List.length_append, ← hwalk]
          exact Nat.lt_succ_self _
        · rwa [List.take_of_length_le (by simp [hwalk])]
    · have heq : interpretStart tree z contexts tag = interpretStart tree' z contexts tag := by
        unfold interpretStart
        rw [hids, ← hchild]
        by_cases hopen : Sealed tree z
        · rw [if_pos hopen, if_pos (hsealed.mp hopen)]
        · rw [if_neg hopen, if_neg (mt hsealed.mpr hopen)]
          cases hid : tree.child (tree.walk (tagsOf z)).ids tag.tagName with
          | none => rfl
          | some id =>
            rw [if_neg hopen, hid] at hat
            obtain ⟨hcontains, htags, -⟩ := hwf.of_evaluatedAt hat
            have hdeclared := hwf.declaredAt_eq_some.mpr ⟨hcontains, htags⟩
            have hne : id ≠ n := fun heq => hn (heq ▸ hdeclared)
            dsimp only
            rw [h.openedContext_eq hwf hwf' hcontains hne]
      rw [← heq]
      exact .outside _ (off_concat hoff hn)

/-- A leaf in both runs. -/
lemma Switched.leaf_inStep (leaf : LeafEvent) : InStep tree n (tagsOf z)
    (if Sealed tree z then s.contextStack else addLeaf tree s.contextStack leaf)
    (if Sealed tree' z then s'.contextStack else addLeaf tree' s'.contextStack leaf) := by
  have hids := hs.ids_eq
  generalize s.contextStack = contexts at hids hstep ⊢
  generalize s'.contextStack = contexts' at hstep ⊢
  cases hstep with
  | inside outer inner ctx ctx' hlt hn hindex =>
    have hsealed : Sealed tree' z := .inr (h.walk_inside hwf hwf' hn).2
    rw [if_pos hsealed]
    split
    · exact .inside outer inner ctx ctx' hlt hn hindex
    · obtain ⟨ctx₂, inner₂, hadd, hsame⟩ := addLeaf_below tree outer inner ctx leaf
      rw [hadd]
      exact .inside outer inner₂ ctx₂ ctx' hlt hn (hsame.trans hindex)
  | outside _ hoff =>
    have hadd : addLeaf tree contexts leaf = addLeaf tree' contexts leaf := by
      rcases List.eq_nil_or_concat' contexts with rfl | ⟨outer, ctx, rfl⟩
      · rfl
      · have hmem : ctx.descriptorId ∈ (tree.walk (tagsOf z)).ids := by simp [← hids]
        have hcontains := (DescriptorTree.walk_ok hwf (tagsOf z)).contains _ hmem
        simp only [addLeaf, List.getLast?_concat, List.dropLast_concat,
          (h.keeps_eq hwf hwf' hcontains (hoff.ne_of_mem hwf hmem)).2]
    rw [hadd]
    simp only [h.sealed_iff hwf hwf' hoff]
    exact .outside _ hoff

omit hstep in
variable (checks) in
/-- An element outside the node closes. -/
lemma Switched.interpretClose_eq (hoff : Off tree n (tagsOf z)) :
    interpretClose checks tree z s.contextStack = interpretClose checks tree' z s.contextStack := by
  have hids := hs.ids_eq
  generalize s.contextStack = contexts at hids ⊢
  unfold interpretClose interpretEnd
  rw [← h.walk_off hwf hwf' hoff]
  rcases List.eq_nil_or_concat' contexts with rfl | ⟨outer, ctx, rfl⟩
  · rfl
  · have hmem : ctx.descriptorId ∈ (tree.walk (tagsOf z)).ids := by simp [← hids]
    have hcontains := (DescriptorTree.walk_ok hwf (tagsOf z)).contains _ hmem
    have hne := hoff.ne_of_mem hwf hmem
    simp only [List.getLast?_concat, List.dropLast_concat, h.closingView_eq checks hcontains hne, h.rules_eq,
      h.summaryOf_eq hwf hwf' hcontains rfl rfl]

end Steps

/-- The innermost open element is of node `id` and closes: its rules have these results, and it leaves its
summary to the frames around it. -/
structure NodeCloses [Rule R] (checks : OverflowChecks) (tree : DescriptorTree R) (id : NodeId)
    (z : OpenElements) (ls : List Level) (l : Level) (results : RuleResults) (s t : ParserState R) : Prop where
  id_eq : l.id = id
  frames_eq : z = (ls ++ [l]).map Level.frame
  tracks : Tracks tree (ls ++ [l]) [] s
  results_eq : ruleResultsOf checks (l.view checks tree ls) (tree.desc id).rules = .ok results
  contexts_eq : t.contextStack =
    pushSummary (ls.map Level.ctx) (summaryOf tree l.ctx l.frame.label l.frame.content results)
  out_eq : t.out = s.out.record (evaluationsOn (l.view checks tree ls) (tree.desc id).rules)

section NodeCloses

variable [Rule R] {checks : OverflowChecks} {tree : DescriptorTree R} {id : NodeId} {z w : OpenElements}
  {f : Frame BytesStart LeafEvent} {ls : List Level} {l : Level} {results : RuleResults} {s t : ParserState R}

lemma Follows.nodeCloses (hwf : tree.WellFormed) (h : Follows tree (w ++ [f]) s)
    (hid : tree.evaluatedAt (tagsOf w ++ [f.label.tagName]) = some id)
    (hend : handleEnd checks tree s = .next t) :
    ∃ ls l results, NodeCloses checks tree id (w ++ [f]) ls l results s t := by
  obtain ⟨ls, l, htracks, hframes, rfl, hframe⟩ := h.innermost hwf hid
  have hok := end_ok checks htracks
  rw [hend] at hok
  cases hok with
  | next levels' rest' _ _ _ hout hleaves =>
    obtain ⟨summary, hsummary⟩ := hleaves rfl ls l rfl
    have hsame := hsummary.summarizes.summaryOf_eq htracks.levels_ok.last hsummary.index_eq
    have hcontexts : s.contextStack.dropLast = ls.map Level.ctx := by simp [htracks.contextStack_eq]
    refine ⟨ls, l, summary.ruleResults, rfl, ?_, htracks, hsummary.results_eq, ?_, ?_⟩
    · rw [List.map_append, hframes, List.map_singleton, hframe]
    · rw [hsummary.contexts_eq, hsame, hcontexts]
    · rw [hout, closingEvaluations_concat]

lemma NodeCloses.contextStack_eq (h : NodeCloses checks tree id z ls l results s t) :
    s.contextStack = ls.map Level.ctx ++ [l.ctx] := by
  simp [h.tracks.contextStack_eq]

lemma NodeCloses.frame_eq {tree' : DescriptorTree R} {ls' : List Level} {l' : Level} {r' : RuleResults}
    {s' t' : ParserState R} (h : NodeCloses checks tree id z ls l results s t)
    (h' : NodeCloses checks tree' id z ls' l' r' s' t') : l.frame = l'.frame := by
  have hframes := h.frames_eq.symm.trans h'.frames_eq
  rw [List.map_append, List.map_append] at hframes
  exact List.singleton_inj.mp (List.append_inj' hframes rfl).2

lemma NodeCloses.length_eq (h : NodeCloses checks tree id z ls l results s t) : ls.length + 1 = z.length := by
  simp [h.frames_eq]

end NodeCloses

section Closing

variable [Rule R] {checks : OverflowChecks} {tree tree' : DescriptorTree R} {n : NodeId} {z w : OpenElements}
  {f : Frame BytesStart LeafEvent} {s s' t t' : ParserState R} (hwf : tree.WellFormed)
  (hwf' : tree'.WellFormed) (h : Switched tree tree' n) (hs : Follows tree z s) (hs' : Follows tree' z s')
  (hstep : InStep tree n (tagsOf z) s.contextStack s'.contextStack)

/-- At the end of an element of the node the frames around it are the same. -/
lemma InStep.ends (hstep : InStep tree n (tagsOf z) s.contextStack s'.contextStack) (hwf : tree.WellFormed)
    {ls ls' : List Level} {l l' : Level} {r r' : RuleResults} (hn : tree.declaredAt (tagsOf z) = some n)
    (hclose : NodeCloses checks tree n z ls l r s t) (hclose' : NodeCloses checks tree' n z ls' l' r' s' t') :
    ls.map Level.ctx = ls'.map Level.ctx ∧ l.ctx.index = l'.ctx.index := by
  have hlength := hclose.length_eq
  rw [hclose.contextStack_eq, hclose'.contextStack_eq] at hstep
  generalize hlefts : ls.map Level.ctx ++ [l.ctx] = contexts at hstep
  generalize hrights : ls'.map Level.ctx ++ [l'.ctx] = contexts' at hstep
  cases hstep with
  | outside _ hoff =>
    have hlast := hoff z.length
    rw [List.take_of_length_le (length_tagsOf z).le] at hlast
    exact absurd hn hlast
  | inside outer inner ctx ctx' hlt hdeclared hindex =>
    have htags := (hwf.declaredAt_eq_some.mp hn).2
    have hprefix := congrArg List.length (htags.symm.trans (hwf.declaredAt_eq_some.mp hdeclared).2)
    rw [List.length_take, length_tagsOf] at hprefix
    rw [length_tagsOf] at hlt
    have houter : (ls.map Level.ctx).length = outer.length := by
      rw [List.length_map]
      omega
    obtain ⟨hsame, hlast⟩ := List.append_inj hlefts houter
    obtain ⟨hsame', hlast'⟩ := List.append_inj' hrights rfl
    obtain ⟨rfl, -⟩ := List.cons_eq_cons.mp hlast
    obtain rfl := List.singleton_inj.mp hlast'
    exact ⟨hsame.trans hsame'.symm, hindex⟩

/-- An element that is skipped or inside a capture closes. -/
lemma interpretClose_below {contexts : List NodeContext} (hbelow : 0 < (tree.walk (tagsOf z)).below) :
    interpretClose checks tree z contexts = .ok (contexts, []) := by
  unfold interpretClose
  cases z.getLast? with
  | none => rfl
  | some f => exact if_pos hbelow

/-- The frames at the end of an element inside this one. -/
lemma interpretEnd_below {outer inner contexts : List NodeContext} {ctx : NodeContext} {tag : BytesStart}
    {content : Content} {evals : List (Evaluation R)} (hinner : inner ≠ [])
    (h : interpretEnd checks tree (outer ++ ctx :: inner) tag content = .ok (contexts, evals)) :
    ∃ ctx₂ inner₂, contexts = outer ++ ctx₂ :: inner₂ ∧ ctx₂.index = ctx.index := by
  obtain ⟨inner, last, rfl⟩ := (List.eq_nil_or_concat' inner).resolve_left hinner
  rw [← List.cons_append, ← List.append_assoc] at h
  simp only [interpretEnd, List.getLast?_concat, List.dropLast_concat] at h
  obtain ⟨results, -, hrest⟩ := bind_eq_ok.mp h
  rw [except_pure, Except.ok.injEq, Prod.mk.injEq] at hrest
  rw [← hrest.1]
  exact pushSummary_below outer inner ctx _

include hwf hwf' h hs hs' hstep

/-- An element closes in both runs. -/
lemma Switched.close_inStep (hend : handleEnd checks tree s = .next t)
    (hend' : handleEnd checks tree' s' = .next t')
    (hbits : ∀ ls l r ls' l' r', NodeCloses checks tree n z ls l r s t →
      NodeCloses checks tree' n z ls' l' r' s' t' → ls ≠ [] → r = r') :
    InStep tree n (tagsOf (z.advance .close)) t.contextStack t'.contextStack := by
  by_cases hn : tree.declaredAt (tagsOf z) = some n
  · -- an element of the node
    obtain ⟨w, f, rfl⟩ := (List.eq_nil_or_concat' z).resolve_left (by rintro rfl; exact off_nil hwf 0 hn)
    have htags : tagsOf (w ++ [f]) = tagsOf w ++ [f.label.tagName] := by simp
    rw [htags] at hn
    obtain ⟨hat, hat'⟩ := h.evaluatedAt_eq hwf hwf' hn
    obtain ⟨ls, l, r, hclose⟩ := hs.nodeCloses hwf hat hend
    obtain ⟨ls', l', r', hclose'⟩ := hs'.nodeCloses hwf' hat' hend'
    obtain ⟨hcontexts, hindex⟩ := hstep.ends hwf (htags ▸ hn) hclose hclose'
    have hframe := hclose.frame_eq hclose'
    have hl := hclose.tracks.levels_ok.last
    have hl' := hclose'.tracks.levels_ok.last
    have hids : l.ctx.descriptorId = l'.ctx.descriptorId := by
      rw [hl.descriptorId_eq, hl'.descriptorId_eq, hclose.id_eq, hclose'.id_eq]
    have hsummary : summaryOf tree l.ctx l.frame.label l.frame.content r =
        summaryOf tree' l'.ctx l.frame.label l.frame.content r :=
      h.summaryOf_eq hwf hwf' (by rw [hl.descriptorId_eq]; exact hl.contains) hids hindex l.frame.content r
    rw [hclose.contexts_eq, hclose'.contexts_eq, ← hframe, hsummary, ← hcontexts]
    have hsame : pushSummary (ls.map Level.ctx) (summaryOf tree' l'.ctx l.frame.label l.frame.content r) =
        pushSummary (ls.map Level.ctx) (summaryOf tree' l'.ctx l.frame.label l.frame.content r') := by
      by_cases hroot : ls = []
      · rw [hroot]
        rfl
      · rw [hbits ls l r ls' l' r' hclose hclose' hroot]
    rw [hsame, Spine.advance_close, tagsOf_extend]
    exact .outside _ (off_above hwf hn)
  · obtain ⟨evals, hclose, -⟩ := close_interpreted hs hend
    obtain ⟨evals', hclose', -⟩ := close_interpreted hs' hend'
    have hids := hs.ids_eq
    rw [tagsOf_close]
    generalize hcs : s.contextStack = contexts at hids hstep hclose
    generalize hcs' : s'.contextStack = contexts' at hstep hclose'
    cases hstep with
    | outside _ hoff =>
      have heq := h.interpretClose_eq checks hwf hwf' hs hoff
      rw [hcs, hclose, hclose', Except.ok.injEq, Prod.mk.injEq] at heq
      rw [heq.1]
      exact .outside _ (hoff.take _)
    | inside outer inner ctx ctx' hlt hdeclared hindex =>
      -- an element inside the node, which the second tree is still capturing
      have hinside := h.walk_inside hwf hwf' hdeclared
      have hne : outer.length + 1 ≠ (tagsOf z).length := by
        intro heq
        rw [List.take_of_length_le heq.ge] at hdeclared
        exact hn hdeclared
      rw [interpretClose_below (by omega), Except.ok.injEq, Prod.mk.injEq] at hclose'
      have hpath : (tagsOf z).take (z.length - 1) = (tagsOf z).take ((tagsOf z).length - 1) := by
        rw [length_tagsOf]
      have hframes : ∃ ctx₂ inner₂, t.contextStack = outer ++ ctx₂ :: inner₂ ∧ ctx₂.index = ctx.index := by
        by_cases hbelow : 0 < (tree.walk (tagsOf z)).below
        · rw [interpretClose_below hbelow, Except.ok.injEq, Prod.mk.injEq] at hclose
          exact ⟨ctx, inner, hclose.1.symm, rfl⟩
        · have hlength := (DescriptorTree.walk_ok hwf (tagsOf z)).length_eq
          rw [← hids, List.length_map, List.length_append, List.length_cons] at hlength
          obtain ⟨w, f, rfl⟩ := (List.eq_nil_or_concat' z).resolve_left (by rintro rfl; simp at hlt)
          rw [interpretClose, List.getLast?_concat] at hclose
          dsimp only at hclose
          rw [if_neg hbelow] at hclose
          exact interpretEnd_below (List.ne_nil_of_length_pos (by omega)) hclose
      obtain ⟨ctx₂, inner₂, hcontexts, hsame⟩ := hframes
      rw [hcontexts, ← hclose'.1, hpath]
      refine .inside outer inner₂ ctx₂ ctx' ?_ ?_ (hsame.trans hindex)
      · rw [List.length_take]
        omega
      · rwa [List.take_take, Nat.min_eq_left (by omega)]

end Closing

/-! ### The moment an element closes -/

section Moments

variable [Rule R] (checks : OverflowChecks) (tree : DescriptorTree R)

/-- The frames of the interpreter after some events. -/
def framesAfter (before : List Event) : List NodeContext :=
  match interpretEvents checks tree [] [] before with
  | .ok (contexts, _) => contexts
  | .error _ => []

/-- The frames of the interpreter when the element that the event closes ends. -/
def framesAtEnd (before : List Event) : Event → List NodeContext
  | .empty tag => interpretStart tree (Spine.advanceAll [] before) (framesAfter checks tree before) tag
  | _ => framesAfter checks tree before

/-- What the rules of the element that the event closes read. -/
def viewAt (before : List Event) (tok : Event) (c : ClosingElement) : Option NodeAccess :=
  (framesAtEnd checks tree before tok).getLast?.map fun ctx =>
    closingView checks tree (framesAtEnd checks tree before tok).dropLast ctx c.label c.content

/-- The rules of node `n` set the same bits on what the two trees show them of this element. -/
def SameVerdicts (tree' : DescriptorTree R) (n : NodeId) (before : List Event) (tok : Event)
    (c : ClosingElement) : Prop :=
  ∀ view view', viewAt checks tree before tok c = some view → viewAt checks tree' before tok c = some view' →
    SameBits (tree.desc n).rules view view'

/-- The state in which the element that the event closes ends, and the one after it. -/
structure ClosesAt (before : List Event) (tok : Event) (c : ClosingElement) (v t : ParserState R) : Prop where
  follows : Follows tree c.spine v
  end_eq : handleEnd checks tree v = .next t
  contexts_eq : v.contextStack = framesAtEnd checks tree before tok

end Moments

section Moments

variable [Rule R] {checks : OverflowChecks} {tree : DescriptorTree R} {id : NodeId} {before : List Event}
  {tok : Event} {c : ClosingElement} {ls : List Level} {l : Level} {results : RuleResults}
  {s t v : ParserState R}

lemma framesAfter_eq (hwf : tree.WellFormed) (hrun : eventLoop checks tree (before.map .ok) .init = .next s) :
    framesAfter checks tree before = s.contextStack := by
  obtain ⟨evals, hevals, -⟩ := events_interpreted hwf (follows_init tree) hrun
  simp only [ParserState.init] at hevals
  rw [framesAfter, hevals]

lemma closesAt (hwf : tree.WellFormed) (hrun : eventLoop checks tree (before.map .ok) .init = .next s)
    (hstep : step checks tree tok s = .next t) (hc : (Spine.advanceAll [] before).closing tok = some c) :
    ∃ v, ClosesAt checks tree before tok c v t ∧ v.out = s.out := by
  have hfollows := follows_of_run hwf hrun
  have hframes := framesAfter_eq hwf hrun
  cases tok with
  | start tag => cases hc
  | leaf leaf => cases hc
  | close =>
    obtain ⟨w, f, hz⟩ := (List.eq_nil_or_concat' (Spine.advanceAll [] before)).resolve_left
      (by intro hnil; rw [hnil] at hc; cases hc)
    rw [hz] at hc hfollows
    obtain rfl := Option.some.inj ((Spine.closing_close w f).symm.trans hc)
    exact ⟨s, ⟨hfollows, hstep, hframes.symm⟩, rfl⟩
  | empty tag =>
    obtain rfl := Option.some.inj ((Spine.closing_empty _ tag).symm.trans hc)
    rw [step_empty] at hstep
    cases hstart : step checks tree (.start tag) s with
    | stop why out =>
      rw [hstart] at hstep
      cases hstep
    | next v =>
      rw [hstart] at hstep
      obtain ⟨hcontexts, hout⟩ := start_interpreted hwf hfollows (handleStart_of_step hstart)
      exact ⟨v, ⟨hfollows.next hwf hstart, hstep, by rw [framesAtEnd, hframes, hcontexts]⟩, hout⟩

lemma ClosesAt.nodeCloses (hwf : tree.WellFormed) (h : ClosesAt checks tree before tok c v t)
    (hid : tree.evaluatedAt (closingTags c) = some id) :
    ∃ ls l results, NodeCloses checks tree id c.spine ls l results v t :=
  h.follows.nodeCloses hwf hid h.end_eq

lemma NodeCloses.viewed (h : NodeCloses checks tree id c.spine ls l results v t) : Viewed tree c ls l :=
  closing_of_spine h.frames_eq ▸ h.tracks.viewed

/-- The interpreter shows the rules what the level shows them. -/
lemma ClosesAt.viewAt_eq (h : ClosesAt checks tree before tok c v t)
    (hclose : NodeCloses checks tree id c.spine ls l results v t) :
    viewAt checks tree before tok c = some (l.view checks tree ls) := by
  have hviewed := hclose.viewed
  have hview := hviewed.levels_ok.last.closingView_eq checks ls
  rw [viewAt, ← h.contexts_eq, hclose.contextStack_eq, List.getLast?_concat, List.dropLast_concat, ← hview,
    hviewed.label_eq, hviewed.content_eq]
  rfl

end Moments

/-! ### Runs in step -/

section Runs

variable [Rule R] {checks : OverflowChecks} {tree tree' : DescriptorTree R} {n : NodeId} {before : List Event}
  {tok : Event} {c : ClosingElement} {s s' t t' v v' : ParserState R} (hwf : tree.WellFormed)
  (hwf' : tree'.WellFormed) (h : Switched tree tree' n)

include hwf hwf' h

/-- Runs that are in step before an element closes are in step at its end. -/
lemma Switched.inStep_atEnd (hrun : eventLoop checks tree (before.map .ok) .init = .next s)
    (hrun' : eventLoop checks tree' (before.map .ok) .init = .next s')
    (hstep : InStep tree n (tagsOf (Spine.advanceAll [] before)) s.contextStack s'.contextStack)
    (hc : (Spine.advanceAll [] before).closing tok = some c) :
    InStep tree n (closingTags c) (framesAtEnd checks tree before tok) (framesAtEnd checks tree' before tok) := by
  have hframes := framesAfter_eq hwf hrun
  have hframes' := framesAfter_eq hwf' hrun'
  cases tok with
  | start tag => cases hc
  | leaf leaf => cases hc
  | close =>
    obtain ⟨w, f, hz⟩ := (List.eq_nil_or_concat' (Spine.advanceAll [] before)).resolve_left
      (by intro hnil; rw [hnil] at hc; cases hc)
    rw [hz] at hc hstep
    obtain rfl := Option.some.inj ((Spine.closing_close w f).symm.trans hc)
    have hends : InStep tree n (closingTags ⟨w, f.label, f.content⟩) (framesAfter checks tree before)
        (framesAfter checks tree' before) := by
      rw [hframes, hframes']
      simpa [closingTags] using hstep
    exact hends
  | empty tag =>
    obtain rfl := Option.some.inj ((Spine.closing_empty _ tag).symm.trans hc)
    rw [framesAtEnd, framesAtEnd, hframes, hframes']
    exact h.start_inStep hwf hwf' (follows_of_run hwf hrun) hstep tag

omit hwf hwf' in
/-- The rules of the node have the same results where they set the same bits. -/
lemma Switched.results_eq {ls ls' : List Level} {l l' : Level} {r r' : RuleResults}
    (hat : ClosesAt checks tree before tok c v t) (hat' : ClosesAt checks tree' before tok c v' t')
    (hclose : NodeCloses checks tree n c.spine ls l r v t)
    (hclose' : NodeCloses checks tree' n c.spine ls' l' r' v' t') :
    SameVerdicts checks tree tree' n before tok c ↔ r = r' := by
  have hresults' := hclose'.results_eq
  rw [← h.rules_eq] at hresults'
  rw [← sameBits_iff hclose.results_eq hresults']
  constructor
  · exact fun hsame => hsame _ _ (hat.viewAt_eq hclose) (hat'.viewAt_eq hclose')
  · intro hbits view view' hview hview'
    obtain rfl := Option.some.inj ((hat.viewAt_eq hclose).symm.trans hview)
    obtain rfl := Option.some.inj ((hat'.viewAt_eq hclose').symm.trans hview')
    exact hbits

/-- One event in both runs. -/
lemma Switched.event_inStep (hrun : eventLoop checks tree (before.map .ok) .init = .next s)
    (hrun' : eventLoop checks tree' (before.map .ok) .init = .next s')
    (hstep : InStep tree n (tagsOf (Spine.advanceAll [] before)) s.contextStack s'.contextStack)
    (hnext : step checks tree tok s = .next t) (hnext' : step checks tree' tok s' = .next t')
    (hsame : ∀ c, (Spine.advanceAll [] before).closing tok = some c →
      tree.declaredAt (closingTags c) = some n → c.above ≠ [] → SameVerdicts checks tree tree' n before tok c) :
    InStep tree n (tagsOf (Spine.advanceAll [] (before ++ [tok]))) t.contextStack t'.contextStack := by
  have hfollows := follows_of_run hwf hrun
  have hfollows' := follows_of_run hwf' hrun'
  rw [Spine.advanceAll_append, Spine.advanceAll_cons, Spine.advanceAll_nil]
  cases hclosing : (Spine.advanceAll [] before).closing tok with
  | none =>
    cases tok with
    | start tag =>
      obtain ⟨hcontexts, -⟩ := start_interpreted hwf hfollows (handleStart_of_step hnext)
      obtain ⟨hcontexts', -⟩ := start_interpreted hwf' hfollows' (handleStart_of_step hnext')
      rw [hcontexts, hcontexts', Spine.advance_start, tagsOf_append]
      exact h.start_inStep hwf hwf' hfollows hstep tag
    | leaf leaf =>
      obtain ⟨evals, hevent, -⟩ := event_interpreted hwf hfollows hnext
      obtain ⟨evals', hevent', -⟩ := event_interpreted hwf' hfollows' hnext'
      rw [interpretEvent, Except.ok.injEq, Prod.mk.injEq] at hevent hevent'
      rw [← hevent.1, ← hevent'.1, Spine.advance_leaf, tagsOf_extend]
      exact h.leaf_inStep hwf hwf' hfollows hstep leaf
    | empty tag => cases hclosing
    | close =>
      refine h.close_inStep hwf hwf' hfollows hfollows' hstep hnext hnext'
        fun ls l r ls' l' r' hclose hclose' hinner => ?_
      rw [hclose.frames_eq, List.map_append, List.map_singleton, Spine.closing_close] at hclosing
      cases hclosing
  | some c =>
    obtain ⟨v, hat, -⟩ := closesAt hwf hrun hnext hclosing
    obtain ⟨v', hat', -⟩ := closesAt hwf' hrun' hnext' hclosing
    have hends := h.inStep_atEnd hwf hwf' hrun hrun' hstep hclosing
    rw [← hat.contexts_eq, ← hat'.contexts_eq, ← tagsOf_spine] at hends
    rw [Spine.advance_of_closing hclosing]
    refine h.close_inStep hwf hwf' hat.follows hat'.follows hends hat.end_eq hat'.end_eq
      fun ls l r ls' l' r' hclose hclose' hinner => ?_
    have hviewed := hclose.viewed
    have hn : tree.declaredAt (closingTags c) = some n := by
      rw [hwf.declaredAt_eq_some, ← hviewed.tags hwf, ← hclose.id_eq]
      exact ⟨hviewed.contains, rfl⟩
    have habove : c.above ≠ [] := by
      rw [hviewed.above_eq, ne_eq, List.map_eq_nil_iff]
      exact hinner
    exact (h.results_eq hat hat' hclose hclose').mp (hsame c hclosing hn habove)

/-- Two runs are in step as long as the rules of the node set the same bits where the runs have been in step. -/
theorem Switched.run_inStep (after : List Event) {ts : List Event} (hts : ts = before ++ after)
    (hrun : eventLoop checks tree (before.map .ok) .init = .next s)
    (hrun' : eventLoop checks tree' (before.map .ok) .init = .next s')
    (hsame : ∀ before tok after c, ts = before ++ tok :: after →
      (Spine.advanceAll [] before).closing tok = some c → tree.declaredAt (closingTags c) = some n →
      c.above ≠ [] →
      InStep tree n (closingTags c) (framesAtEnd checks tree before tok) (framesAtEnd checks tree' before tok) →
      SameVerdicts checks tree tree' n before tok c) :
    InStep tree n (tagsOf (Spine.advanceAll [] before)) s.contextStack s'.contextStack := by
  induction before using List.reverseRecOn generalizing after s s' with
  | nil =>
    obtain rfl := Flow.next.inj hrun
    obtain rfl := Flow.next.inj hrun'
    exact .outside _ (off_nil hwf)
  | append_singleton before tok ih =>
    obtain ⟨u, hu, hnext⟩ := run_concat hrun
    obtain ⟨u', hu', hnext'⟩ := run_concat hrun'
    rw [List.append_assoc, List.singleton_append] at hts
    have hstep := ih _ hts hu hu'
    refine h.event_inStep hwf hwf' hu hu' hstep hnext hnext' fun c hc hn habove => ?_
    exact hsame before tok after c hts hc hn habove (h.inStep_atEnd hwf hwf' hu hu' hstep hc)

end Runs

end XmlOxydizer

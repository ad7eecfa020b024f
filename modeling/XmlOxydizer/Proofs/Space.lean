import XmlOxydizer.Proofs.SummaryRetention
import XmlOxydizer.Proofs.PairedViews
import XmlOxydizer.Proofs.Schemas
import XmlOxydizer.Proofs.SwitchedTrees

/-!
# The space of a parse

However deep and long the document is, the stacks are never higher than the schema is deep. The counter maps are
recycled, so that no more of them exist than the schema is deep, and none holds more entries than a node has
children. At most one stack frame waits in its pool.
-/

namespace XmlOxydizer

open Markup

variable {R : Type}

/-- The length of the longest path in the schema. -/
def DescriptorTree.height (tree : DescriptorTree R) : ℕ :=
  (tree.nodes.map (fun node => node.fullPath.length)).foldr max 0

/-- The largest number of children that a node of the schema has. -/
def DescriptorTree.width (tree : DescriptorTree R) : ℕ :=
  (tree.nodes.map (fun node => node.childIds.length)).foldr max 0

/-- Whether a capture is open. -/
def ParserState.isCapturing (s : ParserState R) : Bool :=
  match s.mode with
  | .streaming => false
  | .capturing .. => true

/-- What a state holds, apart from the summaries, the texts and the attributes of open elements. -/
structure SpaceBound (tree : DescriptorTree R) (s : ParserState R) : Prop where
  contexts : s.contextStack.length ≤ tree.height
  descriptors : s.descriptorStack.length ≤ tree.height
  counter_maps : s.siblingCounters.length + s.siblingPool.length ≤ tree.height
  counters : ∀ counters ∈ s.siblingCounters ++ s.siblingPool, counters.length ≤ tree.width
  frames : s.ctxPool.free.length ≤ if s.isCapturing then 0 else 1
  attr_vectors : s.attrPool.free = []
  capture : ∀ builder depth id i, s.mode = .capturing builder depth id i →
    builder.memoryUsage ≤ tree.captureMemoryLimit
  diagnostics : s.out.diagBuffer.length < diagBufferDefault

/-! ### Counter maps -/

lemma map_fst_bump (tagHash : UInt64) (counters : Counters) : (bump tagHash counters).map Prod.fst =
    if tagHash ∈ counters.map Prod.fst then counters.map Prod.fst
    else counters.map Prod.fst ++ [tagHash] := by
  induction counters with
  | nil => rfl
  | cons entry counters ih =>
    rw [bump]
    by_cases heq : entry.1 = tagHash
    · simp [heq]
    · rw [if_neg heq, List.map_cons, ih]
      have hne : tagHash ≠ entry.1 := fun h => heq h.symm
      by_cases hmem : tagHash ∈ counters.map Prod.fst <;> simp [hmem, hne]

/-- A map has one entry for each hash that it has counted. -/
lemma map_fst_tally (tags : List String) : ((tally tags).map Prod.fst).Nodup ∧
    ∀ h ∈ (tally tags).map Prod.fst, h ∈ tags.map hashTag := by
  induction tags using List.reverseRecOn with
  | nil => simp
  | append_singleton tags tag ih =>
    rw [tally_concat, map_fst_bump]
    split_ifs with hmem
    · exact ⟨ih.1, fun h hh => by simp [ih.2 h hh]⟩
    · refine ⟨List.Nodup.append ih.1 (List.nodup_singleton _) ?_, fun h hh => ?_⟩
      · rwa [List.disjoint_singleton]
      · rw [List.map_append]
        rcases List.mem_append.mp hh with hh | hh
        · exact List.mem_append_left _ (ih.2 h hh)
        · exact List.mem_append_right _ hh

section Levels

variable [Rule R] {tree : DescriptorTree R} {levels : List Level} {id : NodeId}

omit [Rule R] in
lemma fullPath_le (h : tree.Contains id) : (tree.desc id).fullPath.length ≤ tree.height :=
  List.le_max_of_le (List.mem_map_of_mem (DescriptorTree.desc_mem h)) le_rfl

omit [Rule R] in
lemma childIds_le (h : tree.Contains id) : (tree.desc id).childIds.length ≤ tree.width :=
  List.le_max_of_le (List.mem_map_of_mem (DescriptorTree.desc_mem h)) le_rfl

lemma OpenLevels.length_le (hwf : tree.WellFormed) (h : OpenLevels tree levels) :
    levels.length ≤ tree.height := by
  have hwalk := DescriptorTree.walk_ok hwf (tagsOf (levels.map Level.frame))
  rw [h.walk_eq] at hwalk
  rcases List.eq_nil_or_concat' levels with rfl | ⟨ls, l, rfl⟩
  · exact Nat.zero_le _
  · have htags := congrArg List.length (hwalk.tags_last List.map_append)
    have hle := fullPath_le (h.ok l (by simp)).contains
    simp only [DescriptorNode.tags, List.length_map, List.length_take, length_tagsOf, List.length_append,
      List.length_singleton, Nat.min_self] at htags ⊢
    omega

lemma OpenLevels.counted_declared (hwf : tree.WellFormed) (h : OpenLevels tree levels) {l : Level}
    (hl : l ∈ levels) {tag : String} (htag : tag ∈ l.counted) : ∃ c, tree.IsChild l.id c tag := by
  have hsummarized : tag ∈ l.summarizedTags tree → ∃ c, tree.IsChild l.id c tag := by
    intro hmem
    obtain ⟨child, hchild, rfl⟩ := List.mem_map.mp hmem
    unfold summarizedChildren at hchild
    split_ifs at hchild with hcapture
    · cases hchild
    · obtain ⟨⟨label, content⟩, -, hsome⟩ := List.mem_filterMap.mp hchild
      obtain ⟨c, hc, rfl⟩ := Option.map_eq_some_iff.mp hsome
      exact ⟨c, (hwf.child_concat [] (h.ok l hl).contains).mp hc⟩
  obtain ⟨ls, inner, rfl⟩ := List.append_of_mem hl
  cases inner with
  | nil =>
    rw [h.counted_last l (by simp)] at htag
    exact hsummarized htag
  | cons c inner =>
    have hlinked := (List.isChain_cons_cons.mp (List.isChain_append.mp h.linked).2.1).1
    rw [hlinked.counted_eq] at htag
    rcases List.mem_append.mp htag with hmem | hmem
    · exact hsummarized hmem
    · rw [List.mem_singleton.mp hmem]
      exact ⟨c.id, (hwf.child_concat [] (h.ok l hl).contains).mp hlinked.child_eq⟩

lemma mem_childIds (t : BuiltTree R) {p c : NodeId} {tag : String} (hp : t.tree.Contains p)
    (h : t.tree.IsChild p c tag) : c ∈ (t.tree.desc p).childIds := by
  obtain ⟨hcontains, hparent, -⟩ := h
  rw [t.tree_eq] at hp hcontains hparent ⊢
  rw [TreeBuilder.childIds_closedForm hp, List.mem_filter]
  exact ⟨List.mem_map.mpr ⟨c.val, List.mem_range.mpr hcontains, rfl⟩, by simpa using hparent⟩

lemma OpenLevels.tally_le (t : BuiltTree R) (h : OpenLevels t.tree levels) {l : Level} (hl : l ∈ levels) :
    (tally l.counted).length ≤ t.tree.width := by
  have hcontains := (h.ok l hl).contains
  have hsub : (tally l.counted).map Prod.fst ⊆
      (t.tree.desc l.id).childIds.map (fun c => hashTag (t.tree.desc c).tag.str) := by
    intro hash hhash
    obtain ⟨tag, htag, rfl⟩ := List.mem_map.mp ((map_fst_tally l.counted).2 hash hhash)
    obtain ⟨c, hchild⟩ := h.counted_declared t.wellFormed hl htag
    exact List.mem_map.mpr ⟨c, mem_childIds t hcontains hchild, by rw [hchild.tag_eq]⟩
  have hle := (List.Nodup.subperm (map_fst_tally l.counted).1 hsub).length_le
  simp only [List.length_map] at hle
  exact hle.trans (childIds_le hcontains)

end Levels

/-! ### What the handlers do with the pools -/

/-- What one call of a handler does with the pools. -/
inductive PoolMove (s s' : ParserState R) : Prop
  | kept (hcounters : s'.siblingCounters.length = s.siblingCounters.length)
      (hmaps : s'.siblingPool = s.siblingPool) (hframes : s'.ctxPool = s.ctxPool)
      (hmode : s'.isCapturing = s.isCapturing)
  | opened (hcounters : s'.siblingCounters.length = s.siblingCounters.length + 1)
      (hmaps : s'.siblingPool = s.siblingPool.dropLast) (hframes : s'.ctxPool.free = s.ctxPool.free.dropLast)
      (hmode : s.isCapturing = false)
  | closed (hcounters : s'.siblingCounters = s.siblingCounters.dropLast)
      (hmaps : s'.siblingPool = s.siblingPool ++ s.siblingCounters.getLast?.toList)
      (hmode : s'.isCapturing = false)
      (hframes : s'.ctxPool = s.ctxPool ∧ s.isCapturing = false ∨
        ∃ frame, s'.ctxPool.free = s.ctxPool.free ++ [frame] ∧ s.isCapturing = true)

section Moves

variable {checks : OverflowChecks} {tree : DescriptorTree R} {s s' : ParserState R}

lemma acquire_free (pool : ContextPool) (id : NodeId) (attrs : List (String × String)) (index : UInt32) :
    (pool.acquire id attrs index).2.free = pool.free.dropLast := by
  obtain ⟨free⟩ := pool
  rcases List.eq_nil_or_concat' free with rfl | ⟨free, ctx, rfl⟩
  · rfl
  · simp [ContextPool.acquire]

lemma length_countSibling {counters counters' : List Counters} {tagHash : UInt64} {index : UInt32}
    (h : countSibling checks counters tagHash = .ok (index, counters')) : counters'.length = counters.length := by
  rcases List.eq_nil_or_concat' counters with rfl | ⟨counters, last, rfl⟩
  · simp only [countSibling, List.getLast?_nil, Except.ok.injEq, Prod.mk.injEq] at h
    rw [← h.2]
  · simp only [countSibling, List.getLast?_concat, List.dropLast_concat] at h
    obtain ⟨⟨index', last'⟩, -, h⟩ := bind_eq_ok.mp h
    obtain ⟨rfl, rfl⟩ := Prod.mk.inj (Except.ok.inj h)
    simp

lemma openElement_move {tag : BytesStart} {tagName : String} {id : NodeId} (hmode : s.isCapturing = false)
    (h : openElement checks tree tag tagName id s = .ok s') : PoolMove s s' := by
  unfold openElement at h
  obtain ⟨⟨index, counters⟩, hcount, h⟩ := bind_eq_ok.mp h
  obtain ⟨desc, -, h⟩ := bind_eq_ok.mp h
  have hlength : counters.length = s.siblingCounters.length := by
    cases hr : countSibling checks s.siblingCounters (hashTag tagName) with
    | error p =>
      rw [hr] at hcount
      cases hcount
    | ok r =>
      rw [hr] at hcount
      obtain rfl := Except.ok.inj hcount
      exact length_countSibling hr
  dsimp only at h
  split_ifs at h with hread hcapture hcapture
  · obtain ⟨attrs, -, h⟩ := bind_eq_ok.mp h
    obtain ⟨read, -, h⟩ := bind_eq_ok.mp h
    obtain ⟨builder, -, h⟩ := bind_eq_ok.mp h
    obtain rfl := Except.ok.inj h
    exact .opened (by simp [hlength]) rfl (acquire_free ..) hmode
  · obtain ⟨attrs, -, h⟩ := bind_eq_ok.mp h
    obtain rfl := Except.ok.inj h
    exact .opened (by simp [hlength]) rfl (acquire_free ..) hmode
  · obtain ⟨read, -, h⟩ := bind_eq_ok.mp h
    obtain ⟨builder, -, h⟩ := bind_eq_ok.mp h
    obtain rfl := Except.ok.inj h
    exact .opened (by simp [hlength]) rfl (acquire_free ..) hmode
  · obtain rfl := Except.ok.inj h
    exact .opened (by simp [hlength]) rfl (acquire_free ..) hmode

lemma handleStart_move {tag : BytesStart} (h : handleStart checks tree tag s = .ok s') : PoolMove s s' := by
  unfold handleStart at h
  split_ifs at h
  · obtain rfl := Except.ok.inj h
    exact .kept rfl rfl rfl rfl
  cases hmode : s.mode with
  | capturing builder depth descriptorId contextStackIndex =>
    simp only [hmode] at h
    obtain ⟨tagName, -, h⟩ := bind_eq_ok.mp h
    obtain ⟨attrs, -, h⟩ := bind_eq_ok.mp h
    obtain ⟨builder', -, h⟩ := bind_eq_ok.mp h
    obtain rfl := Except.ok.inj h
    exact .kept rfl rfl rfl (by simp [ParserState.isCapturing, hmode])
  | streaming =>
    simp only [hmode] at h
    obtain ⟨tagName, -, h⟩ := bind_eq_ok.mp h
    obtain ⟨child, -, h⟩ := bind_eq_ok.mp h
    have hstreaming : s.isCapturing = false := by simp [ParserState.isCapturing, hmode]
    cases child with
    | some id => exact openElement_move hstreaming h
    | none =>
      obtain rfl := Except.ok.inj h
      exact .kept rfl rfl rfl hstreaming.symm

lemma handleText_move {text : BytesText} (h : handleText tree text s = .ok s') : PoolMove s s' := by
  have hkept : PoolMove s s := .kept rfl rfl rfl rfl
  unfold handleText at h
  split_ifs at h
  case neg =>
    obtain rfl := Except.ok.inj h
    exact hkept
  cases hmode : s.mode with
  | capturing builder depth descriptorId contextStackIndex =>
    simp only [hmode] at h
    obtain ⟨decoded, -, h⟩ := bind_eq_ok.mp h
    split_ifs at h
    · obtain rfl := Except.ok.inj h
      exact hkept
    · obtain ⟨builder', -, h⟩ := bind_eq_ok.mp h
      obtain rfl := Except.ok.inj h
      exact .kept rfl rfl rfl (by simp [ParserState.isCapturing, hmode])
  | streaming =>
    simp only [hmode] at h
    split at h
    · obtain rfl := Except.ok.inj h
      exact hkept
    · obtain ⟨desc, -, h⟩ := bind_eq_ok.mp h
      split_ifs at h
      · obtain ⟨decoded, -, h⟩ := bind_eq_ok.mp h
        split_ifs at h
        · obtain rfl := Except.ok.inj h
          exact hkept
        · obtain rfl := Except.ok.inj h
          exact .kept rfl rfl rfl (by simp [ParserState.isCapturing, hmode])
      · obtain rfl := Except.ok.inj h
        exact hkept

lemma recycleCounters_pool (s : ParserState R) : recycleCounters s = { s with
    siblingCounters := s.siblingCounters.dropLast
    siblingPool := s.siblingPool ++ s.siblingCounters.getLast?.toList } := by
  unfold recycleCounters
  cases hlast : s.siblingCounters.getLast? with
  | none =>
    have hnil := List.getLast?_eq_none_iff.mp hlast
    simp only [hnil, List.dropLast_nil, Option.toList_none, List.append_nil]
    rw [← hnil]
  | some counters => rfl

lemma handleEnd_move [Rule R] (h : handleEnd checks tree s = .next s') : PoolMove s s' := by
  unfold handleEnd at h
  split_ifs at h
  · obtain rfl := Flow.next.inj h
    exact .kept rfl rfl rfl rfl
  cases hmode : s.mode with
  | capturing builder depth descriptorId contextStackIndex =>
    have hcapturing : s.isCapturing = true := by simp [ParserState.isCapturing, hmode]
    simp only [hmode] at h
    obtain ⟨depth', -, h⟩ := attempt_eq_next h
    split_ifs at h
    · obtain ⟨closed, -, h⟩ := attempt_eq_next h
      obtain ⟨ruleResults, -, h⟩ := attempt_eq_next h
      obtain ⟨popped, -, h⟩ := attempt_eq_next h
      obtain rfl := Flow.next.inj h
      simp only [recycleCounters_pool]
      exact .closed rfl rfl rfl (.inr ⟨_, rfl, hcapturing⟩)
    · obtain ⟨builder', -, h⟩ := attempt_eq_next h
      obtain rfl := Flow.next.inj h
      exact .kept rfl rfl rfl hcapturing.symm
  | streaming =>
    have hstreaming : s.isCapturing = false := by simp [ParserState.isCapturing, hmode]
    simp only [hmode, closeStreaming, recycleCounters_pool] at h
    split at h
    · obtain rfl := Flow.next.inj h
      exact .closed rfl rfl rfl (.inl ⟨rfl, hstreaming⟩)
    · obtain ⟨descriptor, -, h⟩ := attempt_eq_next h
      obtain ⟨ruleResults, -, h⟩ := attempt_eq_next h
      obtain rfl := Flow.next.inj h
      exact .closed rfl rfl rfl (.inl ⟨rfl, hstreaming⟩)

end Moves

/-! ### The bounds along a run -/

section Run

variable [Rule R] {t : BuiltTree R} {checks : OverflowChecks} {z z' : OpenElements} {s s' : ParserState R}

/-- What the pools hold is bounded. -/
structure PoolBound (tree : DescriptorTree R) (s : ParserState R) : Prop where
  counter_maps : s.siblingCounters.length + s.siblingPool.length ≤ tree.height
  pooled : ∀ counters ∈ s.siblingPool, counters.length ≤ tree.width
  frames : s.ctxPool.free.length ≤ if s.isCapturing then 0 else 1

lemma Follows.open_counters (h : Follows t.tree z s) : s.siblingCounters.length ≤ t.tree.height ∧
    ∀ counters ∈ s.siblingCounters, counters.length ≤ t.tree.width := by
  obtain ⟨levels, rest, -, htracks⟩ := h
  rw [htracks.siblingCounters_eq, List.length_map]
  refine ⟨htracks.levels_ok.length_le t.wellFormed, fun counters hcounters => ?_⟩
  obtain ⟨l, hl, rfl⟩ := List.mem_map.mp hcounters
  exact htracks.levels_ok.tally_le t hl

lemma PoolMove.bound (hmove : PoolMove s s') (h : PoolBound t.tree s) (hs : Follows t.tree z s)
    (hs' : Follows t.tree z' s') : PoolBound t.tree s' := by
  obtain ⟨hmaps, hpooled, hframes⟩ := h
  cases hmove with
  | kept hcounters hpool hctx hmode =>
    refine ⟨?_, hpool ▸ hpooled, ?_⟩
    · rw [hcounters, hpool]
      exact hmaps
    · rw [hctx, hmode]
      exact hframes
  | opened hcounters hpool hctx hmode =>
    have hheight := hs'.open_counters.1
    refine ⟨?_, fun counters hmem => hpooled counters ?_, ?_⟩
    · rw [hpool, List.length_dropLast]
      omega
    · rw [hpool] at hmem
      exact List.dropLast_subset _ hmem
    · rw [hmode] at hframes
      rw [hctx, List.length_dropLast]
      simp only [Bool.false_eq_true, if_false] at hframes
      omega
  | closed hcounters hpool hmode hctx =>
    refine ⟨?_, fun counters hmem => ?_, ?_⟩
    · rcases List.eq_nil_or_concat' s.siblingCounters with hnil | ⟨outer, last, hlast⟩
      · simpa [hcounters, hpool, hnil] using hmaps
      · simp only [hlast, List.length_append, List.length_singleton] at hmaps
        simp only [hcounters, hpool, hlast, List.dropLast_concat, List.getLast?_concat, Option.toList_some,
          List.length_append, List.length_singleton]
        omega
    · rw [hpool] at hmem
      rcases List.mem_append.mp hmem with hmem | hmem
      · exact hpooled counters hmem
      · exact hs.open_counters.2 counters (List.mem_of_getLast? (by simpa using hmem))
    · rw [hmode]
      rcases hctx with ⟨hctx, hstreaming⟩ | ⟨frame, hctx, hcapturing⟩
      · rw [hctx]
        simpa [hstreaming] using hframes
      · rw [hcapturing] at hframes
        simpa [hctx] using hframes

lemma step_bound (h : PoolBound t.tree s) (hs : Follows t.tree z s) {tok : Event}
    (hstep : step checks t.tree tok s = .next s') : PoolBound t.tree s' := by
  have hs' : Follows t.tree (z.advance tok) s' := by
    have hok := step_ok checks t.wellFormed hs tok
    rw [hstep] at hok
    cases hok with
    | next _ _ hfollows => exact hfollows
  cases tok with
  | start tag =>
    obtain ⟨u, hu, hnext⟩ := attempt_eq_next hstep
    obtain rfl := Flow.next.inj hnext
    exact (handleStart_move hu).bound h hs hs'
  | close => exact (handleEnd_move hstep).bound h hs hs'
  | empty tag =>
    obtain ⟨u, hu, hend⟩ := attempt_eq_next hstep
    have hbetween := (hs.start t.wellFormed hu).1
    exact (handleEnd_move hend).bound ((handleStart_move hu).bound h hs hbetween) hbetween hs'
  | leaf leaf =>
    cases leaf with
    | text text =>
      obtain ⟨u, hu, hnext⟩ := attempt_eq_next hstep
      obtain rfl := Flow.next.inj hnext
      exact (handleText_move hu).bound h hs hs'
    | _ =>
      obtain rfl := Flow.next.inj hstep
      exact h

lemma run_bound {before : List Event} (hrun : eventLoop checks t.tree (before.map .ok) .init = .next s) :
    PoolBound t.tree s ∧ s.out.diagBuffer.length < diagBufferDefault := by
  constructor
  · induction before using List.reverseRecOn generalizing s with
    | nil =>
      obtain rfl := Flow.next.inj hrun
      exact ⟨Nat.zero_le _, by simp [ParserState.init], Nat.zero_le _⟩
    | append_singleton before tok ih =>
      obtain ⟨u, hu, hstep⟩ := run_concat hrun
      exact step_bound (ih hu) (follows_of_run t.wellFormed hu) hstep
  · have hok := run_ok checks t.wellFormed (follows_init t.tree) (before.map .ok)
    rw [hrun] at hok
    cases hok with
    | next ts _ groups _ _ _ hout _ =>
      rw [hout]
      exact (buffered_init.record _).short

end Run

/-- At every point of every parse the state is bounded by the schema, the limit of the captures and the capacity of
the diagnostics buffer, but for what open elements hold of their attributes, texts and children. -/
theorem space_bounded [Rule R] (t : BuiltTree R) (checks : OverflowChecks) (z : OpenElements) (s : ParserState R)
    (h : OpenIn checks t.tree z s) : SpaceBound t.tree s := by
  have hpools : PoolBound t.tree s ∧ s.out.diagBuffer.length < diagBufferDefault := by
    cases h with
    | between before _ hrun => exact run_bound hrun
    | within before tag u _ hrun hstart =>
      obtain ⟨hbound, hshort⟩ := run_bound hrun
      have hu := follows_of_run t.wellFormed hrun
      obtain ⟨hs, hout, -⟩ := hu.start t.wellFormed hstart
      exact ⟨(handleStart_move hstart).bound hbound hu hs, by rw [hout]; exact hshort⟩
  have hfollows := h.follows t.wellFormed
  obtain ⟨levels, rest, -, htracks⟩ := id hfollows
  have hlevels := htracks.levels_ok.length_le t.wellFormed
  constructor
  case contexts => simpa [htracks.contextStack_eq] using hlevels
  case descriptors => simpa [htracks.descriptorStack_eq] using hlevels
  case counter_maps => exact hpools.1.counter_maps
  case counters =>
    intro counters hcounters
    rcases List.mem_append.mp hcounters with hmem | hmem
    · exact hfollows.open_counters.2 counters hmem
    · exact hpools.1.pooled counters hmem
  case frames => exact hpools.1.frames
  case attr_vectors => exact htracks.attrPool_eq
  case capture =>
    intro builder depth id i hmode
    cases htracks.mode_ok with
    | streaming _ hstreaming _ =>
      rw [hmode] at hstreaming
      cases hstreaming
    | capturing ls l b _ _ hb hcapturing _ =>
      rw [hmode] at hcapturing
      cases hcapturing
      exact hb.limit_eq ▸ hb.usage_le
  case diagnostics => exact hpools.2

/-- A list after its second item. -/
theorem space_bounded_sample : textTree.tree.height = 2 ∧ textTree.tree.width = 1 ∧
    ∃ s, OpenIn .checked textTree.tree (Spine.advanceAll [] twoItems) s ∧ SpaceBound textTree.tree s :=
  ⟨by decide +kernel, by decide +kernel, _, .between twoItems _ rfl,
    space_bounded textTree .checked _ _ (.between twoItems _ rfl)⟩

end XmlOxydizer
